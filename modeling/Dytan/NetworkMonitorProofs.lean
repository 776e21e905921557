import Dytan.SyscallStateProofs

/-! # The network monitor — which addresses it is asked about

    `NetworkMonitor` keeps the observers of network addresses, and the address
    of each socket it has recorded.  `notifyForRead` looks an address up and
    uses the entry without asking whether there is one.

    The recorded addresses all have an entry (`Known`), since `connect` and
    `recvfrom` look before they record.  A `recv` does not: on a socket that is
    not recorded it may insert and pass on the default address. -/

namespace DytanNetworkMonitor

open DytanRegister DytanTaintState DytanSyscallState Runs

variable {ws : WordSize} {K : Type}

/-- `NetworkAddress`, with the bits of the `short` port. -/
structure NetworkAddress where
  ip : BitVec 32
  port : BitVec 16
  strAddress : String
deriving DecidableEq, Repr

/-- The address a map inserts for a missing key. -/
def NetworkAddress.zero : NetworkAddress := ⟨0, 0, ""⟩

/-- What an address stands for. -/
def NetworkAddress.peer (a : NetworkAddress) : BitVec 32 × BitVec 16 := (a.ip, a.port)

/-- `NetworkAddress_cmp`. -/
def networkAddressCmp (a b : NetworkAddress) : Bool := a.ip.ult b.ip || a.port.slt b.port

/-- Neither address is less than the other. -/
def Equivalent (a b : NetworkAddress) : Prop :=
  networkAddressCmp a b = false ∧ networkAddressCmp b a = false

/-- The entries of `addressObservers`, in the order of their insertion. -/
abbrev Entries (K : Type) := List (NetworkAddress × List K)

/-- The searches `std::map` makes for `find` and for `operator[]`.  The
    comparator orders the addresses only in part, so a search may miss an
    entry; it never ends at one that is not equivalent to the key. -/
structure MapSearch (K : Type) where
  find : Entries K → NetworkAddress → Option Nat
  place : Entries K → NetworkAddress → Option Nat
  find_equivalent : ∀ {entries : Entries K} {a : NetworkAddress} {i : Nat},
    find entries a = some i → ∃ e, entries[i]? = some e ∧ Equivalent e.1 a
  place_equivalent : ∀ {entries : Entries K} {a : NetworkAddress} {i : Nat},
    place entries a = some i → ∃ e, entries[i]? = some e ∧ Equivalent e.1 a

/-- `observeAddress`: `addressObservers[addr].push_back(…)`. -/
def observeAddress (search : MapSearch K) (addr : NetworkAddress) (callback : K)
    (entries : Entries K) : Entries K :=
  match search.place entries addr with
  | some i => entries.modify i fun e => (e.1, e.2 ++ [callback])
  | none => entries ++ [(addr, [callback])]

/-- `NetworkMonitor`; `find` is the lookup in `addressObservers`. -/
structure NetworkMonitor (K : Type) where
  observeEverything : Bool
  allObserver : Option K
  find : NetworkAddress → Option (NetworkAddress × List K)
  socketToAddress : BitVec 32 → Option NetworkAddress

/-- Replace `socketToAddress`. -/
def NetworkMonitor.setSockets (m : NetworkMonitor K)
    (sockets : BitVec 32 → Option NetworkAddress) : NetworkMonitor K :=
  { m with socketToAddress := sockets }

/-- What the tool registers before the program runs. -/
structure Setup (K : Type) where
  observeEverything : Bool
  addresses : List (NetworkAddress × K)
  forAll : Option K
  search : MapSearch K

/-- The entries the registrations leave. -/
def Setup.entries (u : Setup K) : Entries K :=
  u.addresses.foldl (fun entries r => observeAddress u.search r.1 r.2 entries) []

/-- The lookup in the map the registrations leave. -/
def Setup.find (u : Setup K) (a : NetworkAddress) : Option (NetworkAddress × List K) :=
  (u.search.find u.entries a).bind fun i => u.entries[i]?

/-- The monitor set up. -/
def Setup.monitor (u : Setup K) : NetworkMonitor K where
  observeEverything := u.observeEverything
  allObserver := u.forAll
  find := u.find
  socketToAddress := fun _ => none

/-- The arguments of `notifyForRead`. -/
structure Notification (ws : WordSize) where
  address : NetworkAddress
  start : Addr ws
  bytesRead : Addr ws
deriving DecidableEq, Repr

/-- A callback with what it is called with. -/
structure ReadCall (ws : WordSize) (K : Type) where
  callback : K
  networkAddr : NetworkAddress
  start : Addr ws
  length : Addr ws
deriving DecidableEq, Repr

/-- `notifyForRead`: the calls it makes.  `none` is the use of `end()`. -/
def notifyForRead (n : Notification ws) (m : NetworkMonitor K) : Option (List (ReadCall ws K)) :=
  -- the test for `end()` is commented out; `allObserver` is not called
  (m.find n.address).map fun it =>
    it.2.map fun callback => ⟨callback, it.1, n.start, n.bytesRead⟩

/-! ## The callbacks -/

/-- The numbers of `linux/net.h` that `socketcallNetworkCallback` tells
    apart. -/
inductive Socketcall where
  | connect | recvfrom | recv | other
deriving DecidableEq, Repr

/-- The cases of its `switch`; `none` is the default case, which aborts. -/
def socketcallCase (num : BitVec 32) : Option Socketcall :=
  if num = 3 then some .connect
  else if num = 12 then some .recvfrom
  else if num = 10 then some .recv
  -- `SYS_SOCKETPAIR`, 8, is not listed
  else if [1, 2, 4, 5, 6, 7, 9, 11, 13, 14, 15, 16].contains num then some .other
  else none

/-- `sock_args[i]`, an `unsigned long`. -/
def sockArg (mem : AppMemory ws) (args : SyscallArguments ws) (i : Nat) : Option (Addr ws) :=
  mem.word (args.arg1 + BitVec.ofNat ws.bits (i * (ws.bits / 8)))

/-- The address a `struct sockaddr_in` gives to the local `address`. -/
def sockAddress (mem : AppMemory ws) (servAddr : Addr ws) : Option NetworkAddress :=
  (mem.sockaddrIn servAddr).map fun addr => ⟨addr.sAddr, addr.sinPort, ""⟩

/-- `socketToAddress[sock] = address`. -/
def saveSocket (sock : BitVec 32) (address : NetworkAddress) (m : NetworkMonitor K) :
    NetworkMonitor K :=
  m.setSockets (Function.update m.socketToAddress sock (some address))

/-- "check if the address in this call needs to be observed". -/
def needsObserving (address : NetworkAddress) (m : NetworkMonitor K) : Bool :=
  (m.find address).isSome && m.observeEverything

/-- `case SYS_CONNECT`. -/
def connectCase (mem : AppMemory ws) (args : SyscallArguments ws) (m : NetworkMonitor K) :
    Option (NetworkMonitor K) := do
  let servAddr ← sockArg mem args 1
  let address ← sockAddress mem servAddr
  if needsObserving address m then
    let sock ← sockArg mem args 0
    some (saveSocket (int sock) address m)
  else some m

/-- `case SYS_RECV`: reading a missing entry of `socketToAddress` inserts it. -/
def recvCase (mem : AppMemory ws) (args : SyscallArguments ws) (m : NetworkMonitor K) :
    Option (NetworkMonitor K × Option (Notification ws)) := do
  let sock := int (← sockArg mem args 0)
  -- the mode that records nothing is the one that is given up on
  if m.socketToAddress sock = none ∧ m.observeEverything = false then some (m, none)
  else
    let address := (m.socketToAddress sock).getD NetworkAddress.zero
    let buf ← sockArg mem args 1
    some (saveSocket sock address m, some ⟨address, buf, ofInt ws (int args.ret)⟩)

/-- `case SYS_RECVFROM` up to where it falls through. -/
def recvfromCase (mem : AppMemory ws) (args : SyscallArguments ws) (m : NetworkMonitor K) :
    Option (NetworkMonitor K) := do
  let sock ← sockArg mem args 0
  let servAddr ← sockArg mem args 4
  let address ← sockAddress mem servAddr
  some (if needsObserving address m then saveSocket (int sock) address m else m)

/-- `socketcallNetworkCallback`, up to the call of `notifyForRead`. -/
def socketcallNetworkCallback (mem : AppMemory ws) (args : SyscallArguments ws)
    (m : NetworkMonitor K) : Option (NetworkMonitor K × Option (Notification ws)) := do
  match ← socketcallCase (int args.arg0) with
  | .connect =>
      let m' ← connectCase mem args m
      some (m', none)
  | .recvfrom =>
      let m' ← recvfromCase mem args m
      -- no `break`
      recvCase mem args m'
  | .recv => recvCase mem args m
  | .other => some (m, none)

/-- `closeNetworkCallback`. -/
def closeNetworkCallback (args : SyscallArguments ws) (m : NetworkMonitor K) :
    NetworkMonitor K :=
  if int args.ret = minusOne then m
  else m.setSockets (Function.update m.socketToAddress (int args.arg0) none)

/-- `readNetworkCallback`, up to the call of `notifyForRead`. -/
def readNetworkCallback (args : SyscallArguments ws) (m : NetworkMonitor K) :
    Option (Notification ws) :=
  if int args.ret = minusOne then none
  else (m.socketToAddress (int args.arg0)).map fun address =>
    ⟨address, args.arg1, ofInt ws (int args.ret)⟩

/-- The calls on sockets.  `connect` and `recvfrom` are the calls of kernels
    without `socketcall`. -/
inductive NetCall where
  | sysSocketcall | sysConnect | sysRecvfrom | sysRead | sysClose
deriving DecidableEq, Repr

/-- A call, with the memory of the application when it returns. -/
structure NetEvent (ws : WordSize) where
  call : NetCall
  args : SyscallArguments ws
  mem : AppMemory ws

/-- What the callbacks registered by `activate` make of a call;
    `SYS_socketcall` is registered in 32-bit builds. -/
def observe (e : NetEvent ws) (m : NetworkMonitor K) :
    Option (NetworkMonitor K × Option (Notification ws)) :=
  match e.call with
  | .sysSocketcall =>
      if ws = .w32 then socketcallNetworkCallback e.mem e.args m else some (m, none)
  | .sysRead => some (m, readNetworkCallback e.args m)
  | .sysClose => some (closeNetworkCallback e.args m, none)
  | .sysConnect | .sysRecvfrom => some (m, none)

/-- The same with the calls `notifyForRead` makes. -/
def deliver (e : NetEvent ws) (m : NetworkMonitor K) :
    Option (NetworkMonitor K × List (ReadCall ws K)) := do
  let (m', notification) ← observe e m
  match notification with
  | none => some (m', [])
  | some n => (notifyForRead n m').map fun calls => (m', calls)

/-- The monitor after a call. -/
def step (e : NetEvent ws) (m : NetworkMonitor K) : Option (NetworkMonitor K) :=
  (deliver e m).map Prod.fst

/-! ## What is recorded can be looked up -/

/-- Every recorded address has an entry. -/
def Known (m : NetworkMonitor K) : Prop :=
  ∀ sock a, m.socketToAddress sock = some a → (m.find a).isSome

theorem setup_known (u : Setup K) : Known u.monitor := by
  intro sock a h
  exact nomatch h

theorem saveSocket_socketToAddress (sock sock' : BitVec 32) (a : NetworkAddress)
    (m : NetworkMonitor K) :
    (saveSocket sock a m).socketToAddress sock'
      = if sock' = sock then some a else m.socketToAddress sock' :=
  Function.update_apply ..

theorem closeNetworkCallback_socketToAddress {args : SyscallArguments ws}
    (hret : int args.ret ≠ minusOne) (sock : BitVec 32) (m : NetworkMonitor K) :
    (closeNetworkCallback args m).socketToAddress sock
      = if sock = int args.arg0 then none else m.socketToAddress sock := by
  rw [closeNetworkCallback, if_neg hret]
  exact Function.update_apply ..

theorem saveSocket_known {m : NetworkMonitor K} (hm : Known m) {a : NetworkAddress}
    (ha : (m.find a).isSome) (sock : BitVec 32) : Known (saveSocket sock a m) := by
  intro sock' b hb
  show (m.find b).isSome
  rw [saveSocket_socketToAddress] at hb
  by_cases hsock : sock' = sock
  · rw [if_pos hsock] at hb
    cases hb
    exact ha
  · rw [if_neg hsock] at hb
    exact hm sock' b hb

theorem closeNetworkCallback_known {m : NetworkMonitor K} (hm : Known m)
    (args : SyscallArguments ws) : Known (closeNetworkCallback args m) := by
  by_cases hret : int args.ret = minusOne
  · rw [closeNetworkCallback, if_pos hret]
    exact hm
  · intro sock a ha
    have hfind : (closeNetworkCallback args m).find = m.find := by
      rw [closeNetworkCallback, if_neg hret]
      rfl
    rw [closeNetworkCallback_socketToAddress hret] at ha
    rw [hfind]
    by_cases hsock : sock = int args.arg0
    · rw [if_pos hsock] at ha
      exact nomatch ha
    · rw [if_neg hsock] at ha
      exact hm sock a ha

/-- `connect` records a known address or nothing. -/
theorem connectCase_known {mem : AppMemory ws} {args : SyscallArguments ws}
    {m m' : NetworkMonitor K} (hm : Known m) (h : connectCase mem args m = some m') : Known m' := by
  obtain ⟨servAddr, -, h⟩ := Option.bind_eq_some_iff.mp h
  obtain ⟨address, -, h⟩ := Option.bind_eq_some_iff.mp h
  by_cases hneeds : needsObserving address m = true
  · rw [if_pos hneeds] at h
    obtain ⟨sock, -, h⟩ := Option.bind_eq_some_iff.mp h
    cases h
    exact saveSocket_known hm (Bool.and_eq_true_iff.mp hneeds).1 _
  · rw [if_neg hneeds] at h
    cases h
    exact hm

/-- `recvfrom`, before it falls through, as well. -/
theorem recvfromCase_known {mem : AppMemory ws} {args : SyscallArguments ws}
    {m m' : NetworkMonitor K} (hm : Known m) (h : recvfromCase mem args m = some m') :
    Known m' := by
  obtain ⟨sock, -, h⟩ := Option.bind_eq_some_iff.mp h
  obtain ⟨servAddr, -, h⟩ := Option.bind_eq_some_iff.mp h
  obtain ⟨address, -, h⟩ := Option.bind_eq_some_iff.mp h
  cases h
  by_cases hneeds : needsObserving address m = true
  · rw [if_pos hneeds]
    exact saveSocket_known hm (Bool.and_eq_true_iff.mp hneeds).1 _
  · rw [if_neg hneeds]
    exact hm

/-- A `recv` is left alone, or its socket is recorded and it is passed on. -/
theorem recvCase_cases {mem : AppMemory ws} {args : SyscallArguments ws}
    {m m' : NetworkMonitor K} {n : Option (Notification ws)}
    (h : recvCase mem args m = some (m', n)) :
    ∃ sock, sockArg mem args 0 = some sock
      ∧ ((m.socketToAddress (int sock) = none ∧ m.observeEverything = false ∧ m' = m ∧ n = none)
        ∨ ∃ buf address, sockArg mem args 1 = some buf
          ∧ ¬ (m.socketToAddress (int sock) = none ∧ m.observeEverything = false)
          ∧ address = (m.socketToAddress (int sock)).getD NetworkAddress.zero
          ∧ n = some ⟨address, buf, ofInt ws (int args.ret)⟩
          ∧ m' = saveSocket (int sock) address m) := by
  obtain ⟨sock, hsock, h⟩ := Option.bind_eq_some_iff.mp h
  refine ⟨sock, hsock, ?_⟩
  by_cases hskip : m.socketToAddress (int sock) = none ∧ m.observeEverything = false
  · rw [if_pos hskip] at h
    cases h
    exact Or.inl ⟨hskip.1, hskip.2, rfl, rfl⟩
  · rw [if_neg hskip] at h
    obtain ⟨buf, hbuf, h⟩ := Option.bind_eq_some_iff.mp h
    cases h
    exact Or.inr ⟨buf, _, hbuf, hskip, rfl, rfl, rfl⟩

/-- A `recv` that is passed on can be read. -/
theorem recvCase_eq {mem : AppMemory ws} {args : SyscallArguments ws} {m : NetworkMonitor K}
    {sock buf : Addr ws} (hsock : sockArg mem args 0 = some sock)
    (hbuf : sockArg mem args 1 = some buf)
    (hskip : ¬ (m.socketToAddress (int sock) = none ∧ m.observeEverything = false)) :
    recvCase mem args m
      = some (saveSocket (int sock)
            ((m.socketToAddress (int sock)).getD NetworkAddress.zero) m,
          some ⟨(m.socketToAddress (int sock)).getD NetworkAddress.zero, buf,
            ofInt ws (int args.ret)⟩) := by
  rw [recvCase, hsock]
  show (if m.socketToAddress (int sock) = none ∧ m.observeEverything = false then _ else _) = _
  rw [if_neg hskip, hbuf]
  rfl

/-- The address looked up is known. -/
def Safe (e : NetEvent ws) (m : NetworkMonitor K) : Prop :=
  ∀ m' n, observe e m = some (m', some n) → (m'.find n.address).isSome

/-- An observed call whose `socketcallNetworkCallback` runs into a case. -/
def observedCase (e : NetEvent ws) : Option Socketcall :=
  if e.call = .sysSocketcall ∧ ws = .w32 then socketcallCase (int e.args.arg0) else none

/-- The socket of a `recv` or `recvfrom`, and for `recvfrom` the address the
    data came from. -/
def receivedBy (mem : AppMemory ws) (args : SyscallArguments ws) :
    Socketcall → Option (BitVec 32 × Option NetworkAddress)
  | .recv => do
      let sock ← sockArg mem args 0
      let _ ← sockArg mem args 1
      some (int sock, none)
  | .recvfrom => do
      let sock ← sockArg mem args 0
      let servAddr ← sockArg mem args 4
      let address ← sockAddress mem servAddr
      let _ ← sockArg mem args 1
      some (int sock, some address)
  | .connect | .other => none

/-- The same of an observed call. -/
def received (e : NetEvent ws) : Option (BitVec 32 × Option NetworkAddress) :=
  (observedCase e).bind (receivedBy e.mem e.args)

theorem receivedBy_recv {mem : AppMemory ws} {args : SyscallArguments ws}
    {r : BitVec 32 × Option NetworkAddress} :
    receivedBy mem args .recv = some r ↔ ∃ sock buf, sockArg mem args 0 = some sock
      ∧ sockArg mem args 1 = some buf ∧ r = (int sock, none) := by
  constructor
  · intro h
    obtain ⟨sock, hsock, h⟩ := Option.bind_eq_some_iff.mp h
    obtain ⟨buf, hbuf, h⟩ := Option.bind_eq_some_iff.mp h
    cases h
    exact ⟨sock, buf, hsock, hbuf, rfl⟩
  · rintro ⟨sock, buf, hsock, hbuf, rfl⟩
    simp only [receivedBy, hsock, hbuf, Option.bind_eq_bind, Option.bind_some]

theorem receivedBy_recvfrom {mem : AppMemory ws} {args : SyscallArguments ws}
    {r : BitVec 32 × Option NetworkAddress} :
    receivedBy mem args .recvfrom = some r ↔ ∃ sock servAddr address buf,
      sockArg mem args 0 = some sock ∧ sockArg mem args 4 = some servAddr
      ∧ sockAddress mem servAddr = some address ∧ sockArg mem args 1 = some buf
      ∧ r = (int sock, some address) := by
  constructor
  · intro h
    obtain ⟨sock, hsock, h⟩ := Option.bind_eq_some_iff.mp h
    obtain ⟨servAddr, hserv, h⟩ := Option.bind_eq_some_iff.mp h
    obtain ⟨address, haddress, h⟩ := Option.bind_eq_some_iff.mp h
    obtain ⟨buf, hbuf, h⟩ := Option.bind_eq_some_iff.mp h
    cases h
    exact ⟨sock, servAddr, address, buf, hsock, hserv, haddress, hbuf, rfl⟩
  · rintro ⟨sock, servAddr, address, buf, hsock, hserv, haddress, hbuf, rfl⟩
    simp only [receivedBy, hsock, hserv, haddress, hbuf, Option.bind_eq_bind, Option.bind_some]

/-- Where everything is observed, a `recv` or `recvfrom` is on a recorded
    socket, or the data came from an observed address, or the address 0 is
    observed. -/
def NotifiesKnown (e : NetEvent ws) (m : NetworkMonitor K) : Prop :=
  ∀ r, received e = some r → m.observeEverything = true →
    (m.socketToAddress r.1).isSome ∨ (r.2.bind m.find).isSome
      ∨ (m.find NetworkAddress.zero).isSome

/-- Passing on a `recv` is safe exactly if its socket is recorded or the
    address 0 is known. -/
theorem recv_safe_iff {mem : AppMemory ws} {args : SyscallArguments ws} {m : NetworkMonitor K}
    (hm : Known m) :
    (∀ m' n, recvCase mem args m = some (m', some n) → (m'.find n.address).isSome)
      ↔ ∀ sock buf, sockArg mem args 0 = some sock → sockArg mem args 1 = some buf →
          m.observeEverything = true →
          (m.socketToAddress (int sock)).isSome ∨ (m.find NetworkAddress.zero).isSome := by
  constructor
  · intro h sock buf hsock hbuf heverything
    have hskip : ¬ (m.socketToAddress (int sock) = none ∧ m.observeEverything = false) := by
      rintro ⟨-, hoff⟩
      rw [heverything] at hoff
      exact nomatch hoff
    have hfind := h _ _ (recvCase_eq hsock hbuf hskip)
    cases hrec : m.socketToAddress (int sock) with
    | some a => exact Or.inl rfl
    | none =>
        rw [hrec] at hfind
        exact Or.inr hfind
  · intro h m' n hrecv
    obtain ⟨sock, hsock, ⟨-, -, -, hn⟩ | ⟨buf, address, hbuf, hskip, rfl, hn, rfl⟩⟩ :=
      recvCase_cases hrecv
    · exact nomatch hn
    cases hn
    show (m.find ((m.socketToAddress (int sock)).getD NetworkAddress.zero)).isSome
    cases hrec : m.socketToAddress (int sock) with
    | some a => exact hm _ a hrec
    | none =>
        -- the address passed on is the one `operator[]` inserted
        have heverything : m.observeEverything = true := by
          by_contra hoff
          exact hskip ⟨hrec, Bool.not_eq_true _ ▸ hoff⟩
        rcases h sock buf hsock hbuf heverything with h | h
        · rw [hrec] at h
          exact nomatch h
        · exact h

/-- `recvfrom` records its sender where everything is observed, if it is
    known. -/
theorem recvfromCase_eq_some {mem : AppMemory ws} {args : SyscallArguments ws}
    {m m' : NetworkMonitor K} :
    recvfromCase mem args m = some m' ↔ ∃ sock servAddr address, sockArg mem args 0 = some sock
      ∧ sockArg mem args 4 = some servAddr ∧ sockAddress mem servAddr = some address
      ∧ m' = if needsObserving address m then saveSocket (int sock) address m else m := by
  constructor
  · intro h
    obtain ⟨sock, hsock, h⟩ := Option.bind_eq_some_iff.mp h
    obtain ⟨servAddr, hserv, h⟩ := Option.bind_eq_some_iff.mp h
    obtain ⟨address, haddress, h⟩ := Option.bind_eq_some_iff.mp h
    cases h
    exact ⟨sock, servAddr, address, hsock, hserv, haddress, rfl⟩
  · rintro ⟨sock, servAddr, address, hsock, hserv, haddress, rfl⟩
    rw [recvfromCase, hsock, Option.bind_eq_bind, Option.bind_some, hserv, Option.bind_eq_bind,
      Option.bind_some, haddress]
    rfl

/-- After the `recvfrom` the socket is recorded, unless it was not and the
    sender is not known. -/
theorem recvfrom_recorded {m : NetworkMonitor K} (heverything : m.observeEverything = true)
    (sock : BitVec 32) (address : NetworkAddress) :
    (((if needsObserving address m then saveSocket sock address m else m).socketToAddress
        sock).isSome ∨ (m.find NetworkAddress.zero).isSome)
      ↔ (m.socketToAddress sock).isSome ∨ ((some address).bind m.find).isSome
        ∨ (m.find NetworkAddress.zero).isSome := by
  rw [needsObserving, heverything, Bool.and_true, Option.bind_some]
  cases hfind : m.find address with
  | some it => simp [saveSocket_socketToAddress]
  | none => simp

/-- The observed cases. -/
theorem observe_case {e : NetEvent ws} {c : Socketcall} (hcase : observedCase e = some c)
    (m : NetworkMonitor K) :
    observe e m = match c with
      | .connect => (connectCase e.mem e.args m).map fun m' => (m', none)
      | .recvfrom => (recvfromCase e.mem e.args m).bind (recvCase e.mem e.args)
      | .recv => recvCase e.mem e.args m
      | .other => some (m, none) := by
  rw [observedCase] at hcase
  by_cases hobs : e.call = .sysSocketcall ∧ ws = .w32
  · rw [if_pos hobs] at hcase
    rw [observe, hobs.1]
    show (if ws = .w32 then socketcallNetworkCallback e.mem e.args m else _) = _
    rw [if_pos hobs.2, socketcallNetworkCallback, hcase]
    cases c with
    | connect => exact Option.map_eq_bind.symm
    | _ => rfl
  · rw [if_neg hobs] at hcase
    exact nomatch hcase

/-- Where no case is run into, the call is a `close`, or it leaves the monitor
    as it is. -/
theorem observe_noCase {e : NetEvent ws} (hcase : observedCase e = none) {m m' : NetworkMonitor K}
    {n : Option (Notification ws)} (h : observe e m = some (m', n)) :
    (e.call ≠ .sysClose ∧ m' = m
        ∧ (n = none ∨ (e.call = .sysRead ∧ n = readNetworkCallback e.args m)))
      ∨ (e.call = .sysClose ∧ m' = closeNetworkCallback e.args m ∧ n = none) := by
  rw [observe] at h
  cases hcall : e.call with
  | sysSocketcall =>
      rw [hcall] at h
      simp only at h
      by_cases hws : ws = .w32
      · -- a number without a case aborts
        rw [if_pos hws, socketcallNetworkCallback] at h
        rw [observedCase, if_pos ⟨hcall, hws⟩] at hcase
        rw [hcase] at h
        exact nomatch h
      · rw [if_neg hws] at h
        cases h
        exact Or.inl ⟨NetCall.noConfusion, rfl, Or.inl rfl⟩
  | sysRead =>
      rw [hcall] at h
      cases h
      exact Or.inl ⟨NetCall.noConfusion, rfl, Or.inr ⟨rfl, rfl⟩⟩
  | sysClose =>
      rw [hcall] at h
      cases h
      exact Or.inr ⟨rfl, rfl, rfl⟩
  | sysConnect =>
      rw [hcall] at h
      cases h
      exact Or.inl ⟨NetCall.noConfusion, rfl, Or.inl rfl⟩
  | sysRecvfrom =>
      rw [hcall] at h
      cases h
      exact Or.inl ⟨NetCall.noConfusion, rfl, Or.inl rfl⟩

/-- Passing on a `recvfrom` is safe exactly if its socket is recorded, or its
    sender or the address 0 is known. -/
theorem recvfrom_safe_iff {mem : AppMemory ws} {args : SyscallArguments ws}
    {m : NetworkMonitor K} (hm : Known m) :
    (∀ m' n, (recvfromCase mem args m).bind (recvCase mem args) = some (m', some n) →
        (m'.find n.address).isSome)
      ↔ ∀ r, receivedBy mem args .recvfrom = some r → m.observeEverything = true →
          (m.socketToAddress r.1).isSome ∨ (r.2.bind m.find).isSome
            ∨ (m.find NetworkAddress.zero).isSome := by
  -- recording changes neither the mode nor the observers
  have hkeeps : ∀ (sock : BitVec 32) (address : NetworkAddress),
      (if needsObserving address m then saveSocket sock address m else m).observeEverything
          = m.observeEverything
        ∧ (if needsObserving address m then saveSocket sock address m else m).find = m.find := by
    intro sock address
    split
    · exact ⟨rfl, rfl⟩
    · exact ⟨rfl, rfl⟩
  constructor
  · intro h r hrec heverything
    obtain ⟨sock, servAddr, address, buf, hsock, hserv, haddress, hbuf, rfl⟩ :=
      receivedBy_recvfrom.mp hrec
    have hcase := (recvfromCase_eq_some (m := m)).mpr
      ⟨sock, servAddr, address, hsock, hserv, haddress, rfl⟩
    rw [hcase, Option.bind_some] at h
    have hrecorded := (recv_safe_iff (recvfromCase_known hm hcase)).mp h sock buf hsock hbuf
    rw [(hkeeps _ _).1, (hkeeps _ _).2] at hrecorded
    exact (recvfrom_recorded heverything _ address).mp (hrecorded heverything)
  · intro h m' n hrecv
    obtain ⟨m₁, hcase, hrecv⟩ := Option.bind_eq_some_iff.mp hrecv
    have hm₁ := recvfromCase_known hm hcase
    obtain ⟨sock, servAddr, address, hsock, hserv, haddress, rfl⟩ := recvfromCase_eq_some.mp hcase
    refine (recv_safe_iff hm₁).mpr (fun sock' buf hsock' hbuf heverything => ?_) m' n hrecv
    rw [hsock] at hsock'
    cases hsock'
    rw [(hkeeps _ _).1] at heverything
    rw [(hkeeps _ _).2]
    have hrec := receivedBy_recvfrom.mpr
      ⟨sock, servAddr, address, buf, hsock, hserv, haddress, hbuf, rfl⟩
    exact (recvfrom_recorded heverything _ address).mpr (h _ hrec heverything)

/-- **One call**: the address looked up is known exactly if the call meets the
    condition. -/
theorem call_safe_iff (e : NetEvent ws) {m : NetworkMonitor K} (hm : Known m) :
    Safe e m ↔ NotifiesKnown e m := by
  rw [Safe, NotifiesKnown, received]
  cases hcase : observedCase e with
  | none =>
      refine iff_of_true (fun m' n h => ?_) fun r h => nomatch h
      rcases observe_noCase hcase h with ⟨-, rfl, hn | ⟨-, hn⟩⟩ | ⟨-, -, hn⟩
      · exact nomatch hn
      · -- a `read` looks a recorded address up
        rw [readNetworkCallback] at hn
        by_cases hret : int e.args.ret = minusOne
        · rw [if_pos hret] at hn
          exact nomatch hn
        · rw [if_neg hret] at hn
          obtain ⟨address, haddress, rfl⟩ := Option.map_eq_some_iff.mp hn.symm
          exact hm _ address haddress
      · exact nomatch hn
  | some c =>
      rw [observe_case hcase, Option.bind_some]
      cases c with
      | other => exact iff_of_true (fun m' n h => nomatch h) fun r h => nomatch h
      | connect =>
          refine iff_of_true (fun m' n h => ?_) fun r h => nomatch h
          obtain ⟨m₁, -, h⟩ := Option.map_eq_some_iff.mp h
          exact nomatch h
      | recvfrom => exact recvfrom_safe_iff hm
      | recv =>
          refine (recv_safe_iff hm).trans ?_
          constructor
          · intro h r hrec heverything
            obtain ⟨sock, buf, hsock, hbuf, rfl⟩ := receivedBy_recv.mp hrec
            exact (h sock buf hsock hbuf heverything).imp_right Or.inr
          · intro h sock buf hsock hbuf heverything
            rcases h _ (receivedBy_recv.mpr ⟨sock, buf, hsock, hbuf, rfl⟩) heverything
              with hrec | hrec | hrec
            · exact Or.inl hrec
            · exact nomatch hrec
            · exact Or.inr hrec

/-- What a call that returns has done to the monitor: a notification that is
    answered was for a known address. -/
theorem step_observe {e : NetEvent ws} {m m' : NetworkMonitor K} (h : step e m = some m') :
    ∃ n, observe e m = some (m', n) ∧ ∀ n', n = some n' → (m'.find n'.address).isSome := by
  obtain ⟨⟨m₁, calls⟩, hdeliver, rfl⟩ := Option.map_eq_some_iff.mp h
  obtain ⟨⟨m₂, n⟩, hobserve, hdeliver⟩ := Option.bind_eq_some_iff.mp hdeliver
  cases n with
  | none =>
      cases hdeliver
      exact ⟨none, hobserve, fun n' h => nomatch h⟩
  | some n =>
      obtain ⟨calls', hnotify, heq⟩ := Option.map_eq_some_iff.mp hdeliver
      cases heq
      obtain ⟨it, hit, -⟩ := Option.map_eq_some_iff.mp hnotify
      refine ⟨some n, hobserve, fun n' h => ?_⟩
      cases h
      rw [hit]
      rfl

/-- A step of the run leaves only known addresses recorded. -/
theorem step_known {e : NetEvent ws} {m m' : NetworkMonitor K} (hm : Known m)
    (h : step e m = some m') : Known m' := by
  -- what a receive records has just been looked up
  have hrecv : ∀ {m₁ : NetworkMonitor K} {n : Option (Notification ws)}, Known m₁ →
      recvCase e.mem e.args m₁ = some (m', n) →
      (∀ n', n = some n' → (m'.find n'.address).isSome) → Known m' := by
    intro m₁ n hm₁ hrecv hn
    obtain ⟨sock, -, ⟨-, -, rfl, -⟩ | ⟨buf, address, -, -, -, rfl, rfl⟩⟩ := recvCase_cases hrecv
    · exact hm₁
    · exact saveSocket_known hm₁ (hn _ rfl) _
  obtain ⟨n, hobserve, hn⟩ := step_observe h
  cases hcase : observedCase e with
  | none =>
      rcases observe_noCase hcase hobserve with ⟨-, rfl, -⟩ | ⟨-, rfl, -⟩
      · exact hm
      · exact closeNetworkCallback_known hm e.args
  | some c =>
      rw [observe_case hcase] at hobserve
      cases c with
      | other =>
          cases hobserve
          exact hm
      | connect =>
          obtain ⟨m₁, hcon, heq⟩ := Option.map_eq_some_iff.mp hobserve
          cases heq
          exact connectCase_known hm hcon
      | recv => exact hrecv hm hobserve hn
      | recvfrom =>
          obtain ⟨m₁, hcase₁, hobserve⟩ := Option.bind_eq_some_iff.mp hobserve
          exact hrecv (recvfromCase_known hm hcase₁) hobserve hn

/-- **`notifyForRead` is only called with known addresses** in the runs in
    which, where everything is observed, data is received on recorded sockets
    or from known addresses. -/
theorem notify_known_iff (u : Setup K) (events : List (NetEvent ws)) :
    EachStep step Safe events u.monitor ↔ EachStep step NotifiesKnown events u.monitor := by
  have hiff : ∀ (e : NetEvent ws) (m : NetworkMonitor K), Known m →
      (Safe e m ↔ NotifiesKnown e m) := fun e _ hm => call_safe_iff e hm
  have hstep : ∀ (e : NetEvent ws) (m m' : NetworkMonitor K), Known m → Safe e m →
      step e m = some m' → Known m' := fun _ _ _ hm _ h => step_known hm h
  exact eachStep_congr hiff hstep events (setup_known u)

theorem findIdx?_equivalent {entries : Entries K} {a : NetworkAddress} {i : Nat}
    (h : entries.findIdx? (fun e => !networkAddressCmp e.1 a && !networkAddressCmp a e.1) = some i) :
    ∃ e, entries[i]? = some e ∧ Equivalent e.1 a := by
  obtain ⟨hi, hcmp, -⟩ := List.findIdx?_eq_some_iff_getElem.mp h
  refine ⟨entries[i], List.getElem?_eq_getElem hi, ?_⟩
  rw [Bool.and_eq_true, Bool.not_eq_true', Bool.not_eq_true'] at hcmp
  exact hcmp

/-- The search that looks through all entries. -/
def MapSearch.linear (K : Type) : MapSearch K where
  find := fun entries a => entries.findIdx? fun e =>
    !networkAddressCmp e.1 a && !networkAddressCmp a e.1
  place := fun entries a => entries.findIdx? fun e =>
    !networkAddressCmp e.1 a && !networkAddressCmp a e.1
  find_equivalent := fun h => findIdx?_equivalent h
  place_equivalent := fun h => findIdx?_equivalent h

/-- What the source `*` sets up. -/
def observeAll : Setup Unit where
  observeEverything := true
  addresses := []
  forAll := some ()
  search := MapSearch.linear Unit

/-- A `socketcall` whose `sock_args` are at address 100. -/
def socketcall (num : Addr .w32) (sockArgs : List (Addr .w32)) (addr : SockaddrIn)
    (ret : Addr .w32) : NetEvent .w32 where
  call := .sysSocketcall
  args := SyscallArguments.ofArgs num 100 0 ret
  mem := { AppMemory.unreadable .w32 with
           word := fun p => sockArgs[((p - 100).toNat / 4)]?
           sockaddrIn := fun _ => some addr }

/-- A `recv` on any socket looks the address 0 up, which is not there. -/
theorem recv_looks_up_unknown :
    ¬ EachStep step Safe [socketcall 10 [3, 200, 8, 0] ⟨0, 0⟩ 8] observeAll.monitor := by
  intro h
  have hsafe := h.1 _ _ rfl
  exact absurd hsafe (by decide)

end DytanNetworkMonitor
