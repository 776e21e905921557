import Dytan.NetworkMonitorProofs

/-! # Network sources — when a read calls the callbacks of its peer

    A read on a connected socket has to call the callbacks of the address it is
    connected to, and the all-observer where everything is observed.  Whom it
    calls is decided by what the monitor has recorded for the socket.

    Both are functions of the history: `connectedTo` keeps the last successful
    `connect`, `recordedAs` what the callbacks have made of the calls they
    listen to.  `connect` records where everything is observed, and there the
    address has to be known too; the all-observer is called by nobody. -/

namespace DytanNetworkMonitor

open DytanRegister DytanTaintState DytanSyscallState Runs

variable {ws : WordSize} {K : Type}

/-! ## What the registrations leave -/

theorem equivalent_iff (a b : NetworkAddress) : Equivalent a b ↔ a.peer = b.peer := by
  simp only [Equivalent, networkAddressCmp, NetworkAddress.peer]
  rw [Bool.or_eq_false_iff, Bool.or_eq_false_iff, Prod.mk.injEq]
  constructor
  · rintro ⟨⟨hip, hport⟩, hip', hport'⟩
    rw [BitVec.ult_eq_decide, decide_eq_false_iff_not] at hip hip'
    rw [BitVec.slt_eq_decide, decide_eq_false_iff_not] at hport hport'
    exact ⟨BitVec.eq_of_toNat_eq (by omega), BitVec.eq_of_toInt_eq (by omega)⟩
  · rintro ⟨hip, hport⟩
    simp [hip, hport, BitVec.ult_eq_decide, BitVec.slt_eq_decide]

/-- The callbacks some registrations have for an address, in order. -/
def callbacksOf (addresses : List (NetworkAddress × K)) (a : NetworkAddress) : List K :=
  (addresses.filter fun r => r.1.peer = a.peer).map Prod.snd

/-- The callbacks registered for an address. -/
def Setup.registered (u : Setup K) (a : NetworkAddress) : List K := callbacksOf u.addresses a

theorem callbacksOf_append (addresses addresses' : List (NetworkAddress × K))
    (a : NetworkAddress) :
    callbacksOf (addresses ++ addresses') a
      = callbacksOf addresses a ++ callbacksOf addresses' a := by
  rw [callbacksOf, List.filter_append, List.map_append]
  rfl

theorem callbacksOf_congr (addresses : List (NetworkAddress × K)) {a b : NetworkAddress}
    (h : a.peer = b.peer) : callbacksOf addresses a = callbacksOf addresses b := by
  rw [callbacksOf, h]
  rfl

/-- The callbacks of an entry were registered for its address. -/
def Filed (addresses : List (NetworkAddress × K)) (entries : Entries K) : Prop :=
  ∀ e ∈ entries, e.2 ≠ [] ∧ e.2.Sublist (callbacksOf addresses e.1)

/-- One registration. -/
theorem observeAddress_filed (search : MapSearch K) {addresses : List (NetworkAddress × K)}
    {entries : Entries K} (h : Filed addresses entries) (addr : NetworkAddress) (callback : K) :
    Filed (addresses ++ [(addr, callback)]) (observeAddress search addr callback entries) := by
  have hnew : ∀ a : NetworkAddress, a.peer = addr.peer →
      callbacksOf (addresses ++ [(addr, callback)]) a = callbacksOf addresses a ++ [callback] := by
    intro a ha
    rw [callbacksOf_append]
    simp [callbacksOf, ha]
  have hold : ∀ e ∈ entries,
      e.2 ≠ [] ∧ e.2.Sublist (callbacksOf (addresses ++ [(addr, callback)]) e.1) := by
    intro e he
    refine ⟨(h e he).1, ?_⟩
    rw [callbacksOf_append]
    exact (h e he).2.trans (List.sublist_append_left _ _)
  intro e he
  rw [observeAddress] at he
  cases hplace : search.place entries addr with
  | none =>
      rw [hplace] at he
      rcases List.mem_append.mp he with he | he
      · exact hold e he
      · cases List.mem_singleton.mp he
        refine ⟨List.cons_ne_nil _ _, ?_⟩
        rw [hnew addr rfl]
        exact List.sublist_append_right _ _
  | some i =>
      rw [hplace] at he
      obtain ⟨j, hj⟩ := List.getElem?_of_mem he
      rw [List.getElem?_modify] at hj
      obtain ⟨old, hold', heq⟩ := Option.map_eq_some_iff.mp hj
      have hmem := List.mem_of_getElem? hold'
      by_cases hij : i = j
      · -- the entry found gets the callback; it is one of the same peer
        rw [if_pos hij] at heq
        subst hij heq
        obtain ⟨e', he', hequiv⟩ := search.place_equivalent hplace
        rw [hold'] at he'
        cases he'
        refine ⟨List.append_ne_nil_of_right_ne_nil _ (List.cons_ne_nil _ _), ?_⟩
        show (old.2 ++ [callback]).Sublist (callbacksOf _ old.1)
        rw [hnew _ ((equivalent_iff _ _).mp hequiv)]
        exact (h old hmem).2.append (List.Sublist.refl _)
      · rw [if_neg hij] at heq
        subst heq
        exact hold old hmem

/-- All registrations. -/
theorem entries_filed (u : Setup K) : Filed u.addresses u.entries := by
  have hfold : ∀ (rest done : List (NetworkAddress × K)) (entries : Entries K),
      Filed done entries → Filed (done ++ rest)
        (rest.foldl (fun entries r => observeAddress u.search r.1 r.2 entries) entries) := by
    intro rest
    induction rest with
    | nil =>
        intro done entries h
        rw [List.append_nil]
        exact h
    | cons r rest ih =>
        intro done entries h
        have hstep := ih (done ++ [r]) _ (observeAddress_filed u.search h r.1 r.2)
        rw [List.append_assoc, List.singleton_append] at hstep
        exact hstep
  exact hfold u.addresses [] [] fun e he => absurd he List.not_mem_nil

/-- What a lookup finds: an entry of the address, with callbacks registered
    for it. -/
theorem find_filed {u : Setup K} {a : NetworkAddress} {it : NetworkAddress × List K}
    (h : u.find a = some it) :
    it.1.peer = a.peer ∧ it.2 ≠ [] ∧ it.2.Sublist (u.registered a) := by
  obtain ⟨i, hi, hit⟩ := Option.bind_eq_some_iff.mp h
  obtain ⟨e, he, hequiv⟩ := u.search.find_equivalent hi
  rw [hit] at he
  cases he
  have hpeer := (equivalent_iff _ _).mp hequiv
  obtain ⟨hne, hsub⟩ := entries_filed u it (List.mem_of_getElem? hit)
  refine ⟨hpeer, hne, ?_⟩
  rw [Setup.registered, ← callbacksOf_congr u.addresses hpeer]
  exact hsub

/-- The socket and the peer of a `connect`. -/
def connects (e : NetEvent ws) : Option (BitVec 32 × NetworkAddress) :=
  match e.call with
  | .sysSocketcall =>
      if socketcallCase (int e.args.arg0) = some .connect then do
        let sock ← sockArg e.mem e.args 0
        let servAddr ← sockArg e.mem e.args 1
        let address ← sockAddress e.mem servAddr
        some (int sock, address)
      else none
  | .sysConnect => (sockAddress e.mem e.args.arg1).map fun address => (int e.args.arg0, address)
  | _ => none

/-- The peer of the last successful `connect` of a socket that was not closed
    since, by the latest event first. -/
def connectedTo : List (NetEvent ws) → BitVec 32 → Option NetworkAddress
  | [], _ => none
  | e :: past, fd =>
      if int e.args.ret = minusOne then connectedTo past fd
      else if e.call = .sysClose ∧ int e.args.arg0 = fd then none
      else match connects e with
        | some (sock, address) => if sock = fd then some address else connectedTo past fd
        | none => connectedTo past fd

/-- The socket and the address an observed `connect` or `recvfrom` names. -/
def names (e : NetEvent ws) : Option (BitVec 32 × NetworkAddress) := do
  let servArg ← match observedCase e with
    | some .connect => some 1
    | some .recvfrom => some 4
    | _ => none
  let sock ← sockArg e.mem e.args 0
  let servAddr ← sockArg e.mem e.args servArg
  let address ← sockAddress e.mem servAddr
  some (int sock, address)

/-- What the callbacks have recorded for a socket, by the latest event first.
    They look at the result of `close` only. -/
def recordedAs (u : Setup K) : List (NetEvent ws) → BitVec 32 → Option NetworkAddress
  | [], _ => none
  | e :: past, fd =>
      if e.call = .sysClose then
        if int e.args.ret ≠ minusOne ∧ int e.args.arg0 = fd then none else recordedAs u past fd
      else if u.observeEverything = true then
        match (names e).filter fun p => p.1 = fd ∧ (u.find p.2).isSome with
        | some (_, address) => some address
        | none =>
            if (received e).any fun r => r.1 = fd then
              some ((recordedAs u past fd).getD NetworkAddress.zero)
            else recordedAs u past fd
      else recordedAs u past fd

/-! ## The monitor knows the history -/

/-- What a `recv` does to the recorded sockets. -/
theorem recvCase_sockets {mem : AppMemory ws} {args : SyscallArguments ws}
    {m m' : NetworkMonitor K} {n : Option (Notification ws)}
    (h : recvCase mem args m = some (m', n)) :
    ∃ sock, sockArg mem args 0 = some sock
      ∧ (m.observeEverything = true → ∃ buf, sockArg mem args 1 = some buf)
      ∧ m' = m.setSockets fun fd =>
          if m.observeEverything = true ∧ int sock = fd then
            some ((m.socketToAddress fd).getD NetworkAddress.zero)
          else m.socketToAddress fd := by
  obtain ⟨sock, hsock, ⟨hnone, hoff, rfl, rfl⟩ | ⟨buf, address, hbuf, hskip, rfl, rfl, rfl⟩⟩ :=
    recvCase_cases h
  · refine ⟨sock, hsock, fun hon => ?_, ?_⟩
    · rw [hoff] at hon
      exact nomatch hon
    · simp only [hoff, Bool.false_eq_true, false_and, if_false]
      rfl
  · refine ⟨sock, hsock, fun _ => ⟨buf, hbuf⟩, ?_⟩
    refine congrArg m.setSockets (funext fun fd => ?_)
    rw [Function.update_apply]
    by_cases hfd : fd = int sock
    · subst hfd
      cases hon : m.observeEverything with
      | true => simp
      | false =>
          -- the socket is recorded, so it is recorded as it was
          obtain ⟨a, ha⟩ := Option.ne_none_iff_exists'.mp fun hnone => hskip ⟨hnone, hon⟩
          simp [ha]
    · simp [hfd, Ne.symm hfd]

/-- What saving the address of a call does to the recorded sockets. -/
theorem needsObserving_sockets (m : NetworkMonitor K) (sock : BitVec 32)
    (address : NetworkAddress) :
    (if needsObserving address m then saveSocket sock address m else m)
      = m.setSockets fun fd =>
          if m.observeEverything = true ∧ sock = fd ∧ (m.find address).isSome then some address
          else m.socketToAddress fd := by
  rw [needsObserving]
  by_cases h : (m.find address).isSome = true ∧ m.observeEverything = true
  · rw [if_pos (Bool.and_eq_true_iff.mpr h)]
    refine congrArg m.setSockets (funext fun fd => ?_)
    rw [Function.update_apply]
    by_cases hfd : fd = sock
    · simp [hfd, h.1, h.2]
    · simp [hfd, Ne.symm hfd]
  · rw [if_neg fun hand => h (Bool.and_eq_true_iff.mp hand)]
    have hsame : ∀ fd, ¬ (m.observeEverything = true ∧ sock = fd ∧ (m.find address).isSome) :=
      fun fd hand => h ⟨hand.2.2, hand.1⟩
    simp only [hsame, if_false]
    rfl

/-- An observed case is not a `close`. -/
theorem observedCase_call {e : NetEvent ws} {c : Socketcall} (h : observedCase e = some c) :
    e.call = .sysSocketcall ∧ ws = .w32 := by
  rw [observedCase] at h
  by_cases hobs : e.call = .sysSocketcall ∧ ws = .w32
  · exact hobs
  · rw [if_neg hobs] at h
    cases h

theorem observedCase_not_close {e : NetEvent ws} {c : Socketcall} (h : observedCase e = some c) :
    e.call ≠ .sysClose := by
  rw [(observedCase_call h).1]
  exact NetCall.noConfusion

section RecordedAs

variable {u : Setup K} {past : List (NetEvent ws)} {e : NetEvent ws} {fd : BitVec 32}

/-- Where not everything is observed, a call records nothing. -/
theorem recordedAs_off (hclose : e.call ≠ .sysClose) (hoff : u.observeEverything ≠ true) :
    recordedAs u (e :: past) fd = recordedAs u past fd := by
  rw [recordedAs, if_neg hclose, if_neg hoff]

/-- The call names a known address for the socket. -/
theorem recordedAs_named (hclose : e.call ≠ .sysClose) (hon : u.observeEverything = true)
    {a : NetworkAddress} (hnames : names e = some (fd, a)) (hfind : (u.find a).isSome) :
    recordedAs u (e :: past) fd = some a := by
  rw [recordedAs, if_neg hclose, if_pos hon, hnames]
  simp [Option.filter, hfind]

/-- It names none. -/
theorem recordedAs_unnamed (hclose : e.call ≠ .sysClose) (hon : u.observeEverything = true)
    (hnames : ∀ a, names e = some (fd, a) → ¬ (u.find a).isSome) :
    recordedAs u (e :: past) fd = if (received e).any fun r => r.1 = fd then
        some ((recordedAs u past fd).getD NetworkAddress.zero)
      else recordedAs u past fd := by
  rw [recordedAs, if_neg hclose, if_pos hon]
  cases hn : names e with
  | none => rfl
  | some p =>
      obtain ⟨sock, a⟩ := p
      have hfilter : ¬ (sock = fd ∧ (u.find a).isSome) := by
        rintro ⟨rfl, hfind⟩
        exact hnames a hn hfind
      simp [Option.filter, hfilter]

end RecordedAs

/-- The monitor that was set up, with what a history has recorded. -/
def Setup.after (u : Setup K) (past : List (NetEvent ws)) : NetworkMonitor K :=
  u.monitor.setSockets (recordedAs u past)

/-- A call that is no connect and no receive records nothing. -/
theorem recordedAs_same {u : Setup K} {e : NetEvent ws} (hclose : e.call ≠ .sysClose)
    (hcase : observedCase e = none ∨ observedCase e = some .other) (past : List (NetEvent ws)) :
    recordedAs u (e :: past) = recordedAs u past := by
  have hnames : names e = none := by
    rcases hcase with hcase | hcase <;> rw [names, hcase] <;> rfl
  have hreceived : received e = none := by
    rcases hcase with hcase | hcase <;> rw [received, hcase] <;> rfl
  funext fd
  by_cases hon : u.observeEverything = true
  · rw [recordedAs_unnamed hclose hon (fun a ha => by rw [hnames] at ha; cases ha),
      hreceived]
    rfl
  · exact recordedAs_off hclose hon

/-- `close` forgets the socket. -/
theorem close_recordedAs (u : Setup K) {e : NetEvent ws} (hclose : e.call = .sysClose)
    (past : List (NetEvent ws)) :
    closeNetworkCallback e.args (u.after past) = u.after (e :: past) := by
  rw [closeNetworkCallback]
  by_cases hret : int e.args.ret = minusOne
  · rw [if_pos hret]
    refine congrArg u.monitor.setSockets (funext fun fd => ?_)
    rw [recordedAs, if_pos hclose, if_neg fun h => h.1 hret]
  · rw [if_neg hret]
    refine congrArg u.monitor.setSockets (funext fun fd => ?_)
    show Function.update (recordedAs u past) _ none fd = _
    rw [Function.update_apply, recordedAs, if_pos hclose]
    by_cases hfd : fd = int e.args.arg0
    · rw [if_pos hfd, if_pos ⟨hret, hfd.symm⟩]
    · rw [if_neg hfd, if_neg fun h => hfd h.2.symm]

/-- `connect` records the address it names, if it is known. -/
theorem connect_recordedAs {u : Setup K} {e : NetEvent ws} {past : List (NetEvent ws)}
    {m' : NetworkMonitor K} (hcase : observedCase e = some .connect)
    (h : connectCase e.mem e.args (u.after past) = some m') : m' = u.after (e :: past) := by
  have hclose := observedCase_not_close hcase
  have hreceived : received e = none := by
    rw [received, hcase]
    rfl
  obtain ⟨servAddr, hserv, h⟩ := Option.bind_eq_some_iff.mp h
  obtain ⟨address, haddress, h⟩ := Option.bind_eq_some_iff.mp h
  have hnames : names e = (sockArg e.mem e.args 0).map fun sock => (int sock, address) := by
    simp only [names, hcase, hserv, haddress, Option.bind_eq_bind, Option.bind_some]
    exact Option.map_eq_bind.symm
  by_cases hneeds : needsObserving address (u.after past) = true
  · rw [if_pos hneeds] at h
    obtain ⟨hfind, hon⟩ := Bool.and_eq_true_iff.mp hneeds
    obtain ⟨sock, hsock, h⟩ := Option.bind_eq_some_iff.mp h
    rw [hsock, Option.map_some] at hnames
    cases h
    refine congrArg u.monitor.setSockets (funext fun fd => ?_)
    show Function.update (recordedAs u past) _ (some address) fd = _
    rw [Function.update_apply]
    by_cases hfd : fd = int sock
    · subst hfd
      rw [if_pos rfl, recordedAs_named hclose hon hnames hfind]
    · rw [if_neg hfd, recordedAs_unnamed hclose hon, hreceived]
      · rfl
      · intro a ha
        rw [hnames] at ha
        cases ha
        exact absurd rfl hfd
  · rw [if_neg hneeds] at h
    cases h
    refine congrArg u.monitor.setSockets (funext fun fd => ?_)
    by_cases hon : u.observeEverything = true
    · rw [recordedAs_unnamed hclose hon, hreceived]
      · rfl
      · intro a ha hfind
        rw [hnames] at ha
        obtain ⟨sock, -, heq⟩ := Option.map_eq_some_iff.mp ha
        cases heq
        exact hneeds (Bool.and_eq_true_iff.mpr ⟨hfind, hon⟩)
    · exact (recordedAs_off hclose hon).symm

/-- `recv` records the address it passes on. -/
theorem recv_recordedAs {u : Setup K} {e : NetEvent ws} {past : List (NetEvent ws)}
    {m' : NetworkMonitor K} {n : Option (Notification ws)} (hcase : observedCase e = some .recv)
    (h : recvCase e.mem e.args (u.after past) = some (m', n)) : m' = u.after (e :: past) := by
  have hclose := observedCase_not_close hcase
  have hnames : names e = none := by
    rw [names, hcase]
    rfl
  obtain ⟨sock, hsock, hbuf, rfl⟩ := recvCase_sockets h
  refine congrArg u.monitor.setSockets (funext fun fd => ?_)
  show (if u.observeEverything = true ∧ int sock = fd then
    some ((recordedAs u past fd).getD NetworkAddress.zero) else recordedAs u past fd) = _
  by_cases hon : u.observeEverything = true
  · obtain ⟨buf, hbuf⟩ := hbuf hon
    have hreceived : received e = some (int sock, none) := by
      rw [received, hcase, Option.bind_some]
      exact receivedBy_recv.mpr ⟨sock, buf, hsock, hbuf, rfl⟩
    rw [recordedAs_unnamed hclose hon (fun a ha => by rw [hnames] at ha; cases ha),
      hreceived]
    by_cases hfd : int sock = fd
    · simp [hon, hfd]
    · simp [hfd]
  · rw [if_neg fun hand => hon hand.1, recordedAs_off hclose hon]

/-- `recvfrom` records its sender, if it is known, and then does as `recv`. -/
theorem recvfrom_recordedAs {u : Setup K} {e : NetEvent ws} {past : List (NetEvent ws)}
    {m₁ m' : NetworkMonitor K} {n : Option (Notification ws)}
    (hcase : observedCase e = some .recvfrom)
    (h₁ : recvfromCase e.mem e.args (u.after past) = some m₁)
    (h : recvCase e.mem e.args m₁ = some (m', n)) : m' = u.after (e :: past) := by
  have hclose := observedCase_not_close hcase
  obtain ⟨sock, servAddr, address, hsock, hserv, haddress, rfl⟩ := recvfromCase_eq_some.mp h₁
  have hnames : names e = some (int sock, address) := by
    simp only [names, hcase, hsock, hserv, haddress, Option.bind_eq_bind, Option.bind_some]
  rw [needsObserving_sockets] at h
  obtain ⟨sock', hsock', hbuf, rfl⟩ := recvCase_sockets h
  rw [hsock] at hsock'
  cases hsock'
  refine congrArg u.monitor.setSockets (funext fun fd => ?_)
  show (if u.observeEverything = true ∧ int sock = fd then
      some ((if u.observeEverything = true ∧ int sock = fd ∧ (u.find address).isSome then
        some address else recordedAs u past fd).getD NetworkAddress.zero)
    else if u.observeEverything = true ∧ int sock = fd ∧ (u.find address).isSome then some address
      else recordedAs u past fd) = _
  by_cases hon : u.observeEverything = true
  · obtain ⟨buf, hbuf⟩ := hbuf hon
    have hreceived : received e = some (int sock, some address) := by
      rw [received, hcase, Option.bind_some]
      exact receivedBy_recvfrom.mpr ⟨sock, servAddr, address, buf, hsock, hserv, haddress, hbuf, rfl⟩
    by_cases hfd : int sock = fd
    · subst hfd
      by_cases hfind : (u.find address).isSome
      · rw [recordedAs_named hclose hon hnames hfind]
        simp [hon, hfind]
      · rw [recordedAs_unnamed hclose hon, hreceived]
        · simp [hon, hfind]
        · intro a ha
          rw [hnames] at ha
          cases ha
          exact hfind
    · rw [recordedAs_unnamed hclose hon, hreceived]
      · simp [hfd]
      · intro a ha
        rw [hnames] at ha
        cases ha
        exact absurd rfl hfd
  · rw [recordedAs_off hclose hon]
    simp [hon]

/-- One call. -/
theorem step_recordedAs {u : Setup K} {past : List (NetEvent ws)} {e : NetEvent ws}
    {m' : NetworkMonitor K} (h : step e (u.after past) = some m') :
    m' = u.after (e :: past) := by
  obtain ⟨n, hobserve, -⟩ := step_observe h
  cases hcase : observedCase e with
  | none =>
      -- nothing is recorded but by the two cases, and forgotten by `close`
      rcases observe_noCase hcase hobserve with ⟨hclose, rfl, -⟩ | ⟨hclose, rfl, -⟩
      · exact congrArg u.monitor.setSockets (recordedAs_same hclose (Or.inl hcase) past).symm
      · exact close_recordedAs u hclose past
  | some c =>
      rw [observe_case hcase] at hobserve
      cases c with
      | connect =>
          obtain ⟨m₁, hconnect, heq⟩ := Option.map_eq_some_iff.mp hobserve
          cases heq
          exact connect_recordedAs hcase hconnect
      | recvfrom =>
          obtain ⟨m₁, h₁, hrecv⟩ := Option.bind_eq_some_iff.mp hobserve
          exact recvfrom_recordedAs hcase h₁ hrecv
      | recv => exact recv_recordedAs hcase hobserve
      | other =>
          cases hobserve
          refine congrArg u.monitor.setSockets (recordedAs_same ?_ (Or.inr hcase) past).symm
          exact observedCase_not_close hcase

/-- A run: the monitor has recorded what the whole history says. -/
theorem run_recordedAs (u : Setup K) (events : List (NetEvent ws)) {m : NetworkMonitor K}
    (h : runs step events u.monitor = some m) : m = u.after events.reverse :=
  runs_history (fun _ _ _ => step_recordedAs) h

/-! ## Whom a read calls -/

/-- Whom a read on a socket connected to `a` has to call. -/
def Setup.due (u : Setup K) : Option NetworkAddress → List K
  | none => []
  | some a => u.registered a ++ if u.observeEverything then u.forAll.toList else []

/-- The calls a read has to make: with the address of the peer, the buffer and
    the number of bytes. -/
def Setup.dueCalls (u : Setup K) (peer : Option NetworkAddress) (buf bytesRead : Addr ws) :
    List (K × (BitVec 32 × BitVec 16) × Addr ws × Addr ws) :=
  (u.due peer).map fun callback => (callback, (peer.getD .zero).peer, buf, bytesRead)

/-- A call without the text of its address. -/
def ReadCall.content (c : ReadCall ws K) : K × (BitVec 32 × BitVec 16) × Addr ws × Addr ws :=
  (c.callback, c.networkAddr.peer, c.start, c.length)

/-- A `read` or `recv` of a socket into a buffer.  Kernels without `socketcall`
    have no `recv` but `recvfrom`. -/
def ReadOf (e : NetEvent ws) (fd : BitVec 32) (buf : Addr ws) : Prop :=
  match e.call with
  | .sysRead | .sysRecvfrom => int e.args.arg0 = fd ∧ e.args.arg1 = buf
  | .sysSocketcall =>
      socketcallCase (int e.args.arg0) = some .recv
        ∧ (sockArg e.mem e.args 0).map int = some fd ∧ sockArg e.mem e.args 1 = some buf
  | .sysConnect | .sysClose => False

/-- What a read does as it should.  A successful one makes every call due once
    and no other; one that fails calls nobody where nobody is connected. -/
def Fires (u : Setup K) (past : List (NetEvent ws)) (e : NetEvent ws) (fd : BitVec 32)
    (buf : Addr ws) (r : Option (NetworkMonitor K × List (ReadCall ws K))) : Prop :=
  if int e.args.ret = minusOne then connectedTo past fd = none → ∃ m, r = some (m, [])
  else ∃ m calls, r = some (m, calls) ∧ (calls.map ReadCall.content).Perm
    (u.dueCalls (connectedTo past fd) buf (ofInt ws (int e.args.ret)))

/-- The address under which the monitor looks a read up: what is recorded for
    the socket; a `recv` that is observed makes do with the address 0, and does
    so even if it fails. -/
def lookedUp (u : Setup K) (past : List (NetEvent ws)) (e : NetEvent ws) (fd : BitVec 32) :
    Option NetworkAddress :=
  match e.call with
  | .sysRead => if int e.args.ret = minusOne then none else recordedAs u past fd
  | .sysSocketcall =>
      if ws = .w32 ∧ u.observeEverything = true then
        some ((recordedAs u past fd).getD NetworkAddress.zero)
      else none
  | _ => none

theorem lookedUp_socketcall (u : Setup K) (past : List (NetEvent ws)) {e : NetEvent ws}
    (hcall : e.call = .sysSocketcall) (fd : BitVec 32) :
    lookedUp u past e fd = if ws = .w32 ∧ u.observeEverything = true then
        some ((recordedAs u past fd).getD NetworkAddress.zero)
      else none := by
  rw [lookedUp, hcall]

theorem lookedUp_read (u : Setup K) (past : List (NetEvent ws)) {e : NetEvent ws}
    (hcall : e.call = .sysRead) (fd : BitVec 32) :
    lookedUp u past e fd = if int e.args.ret = minusOne then none else recordedAs u past fd := by
  rw [lookedUp, hcall]

/-- Nothing is looked up and nobody is due; or the address looked up is the one
    the socket is connected to, the lookup finds all callbacks registered for
    it, and there is no all-observer.  If the read fails and nobody is
    connected, nothing may be looked up. -/
def FiresWhen (u : Setup K) (past : List (NetEvent ws)) (e : NetEvent ws) (fd : BitVec 32) :
    Prop :=
  if int e.args.ret = minusOne then connectedTo past fd = none → lookedUp u past e fd = none
  else match lookedUp u past e fd with
    | none => u.due (connectedTo past fd) = []
    | some b =>
        (connectedTo past fd).map NetworkAddress.peer = some b.peer
          ∧ (u.find b).map Prod.snd = some (u.registered b) ∧ u.forAll = none

/-- Only where everything is observed is anything recorded. -/
theorem recordedAs_on {u : Setup K} {past : List (NetEvent ws)} {fd : BitVec 32}
    {b : NetworkAddress} (h : recordedAs u past fd = some b) : u.observeEverything = true := by
  by_contra hoff
  induction past with
  | nil => exact nomatch h
  | cons e past ih =>
      by_cases hclose : e.call = .sysClose
      · rw [recordedAs, if_pos hclose] at h
        by_cases hfd : int e.args.ret ≠ minusOne ∧ int e.args.arg0 = fd
        · rw [if_pos hfd] at h
          exact nomatch h
        · rw [if_neg hfd] at h
          exact ih h
      · rw [recordedAs_off hclose hoff] at h
        exact ih h

theorem lookedUp_on {u : Setup K} {past : List (NetEvent ws)} {e : NetEvent ws}
    {fd : BitVec 32} {b : NetworkAddress} (h : lookedUp u past e fd = some b) :
    u.observeEverything = true := by
  cases hcall : e.call with
  | sysRead =>
      rw [lookedUp_read u past hcall] at h
      by_cases hret : int e.args.ret = minusOne
      · rw [if_pos hret] at h
        exact nomatch h
      · rw [if_neg hret] at h
        exact recordedAs_on h
  | sysSocketcall =>
      rw [lookedUp_socketcall u past hcall] at h
      by_cases hon : ws = .w32 ∧ u.observeEverything = true
      · exact hon.2
      · rw [if_neg hon] at h
        exact nomatch h
  | sysConnect | sysRecvfrom | sysClose =>
      rw [lookedUp, hcall] at h
      exact nomatch h

/-- A read is passed on under the address looked up. -/
theorem observe_read (u : Setup K) (past : List (NetEvent ws)) {e : NetEvent ws}
    {fd : BitVec 32} {buf : Addr ws} (hread : ReadOf e fd buf) :
    ∃ m', m'.find = u.find ∧ observe e (u.after past)
      = some (m', (lookedUp u past e fd).map fun b => ⟨b, buf, ofInt ws (int e.args.ret)⟩) := by
  rw [ReadOf] at hread
  cases hcall : e.call with
  | sysConnect | sysClose =>
      rw [hcall] at hread
      exact False.elim hread
  | sysRecvfrom =>
      refine ⟨u.after past, rfl, ?_⟩
      rw [observe, lookedUp, hcall]
      rfl
  | sysRead =>
      rw [hcall] at hread
      obtain ⟨hfd, hbuf⟩ := hread
      refine ⟨u.after past, rfl, ?_⟩
      rw [lookedUp_read u past hcall, observe, hcall]
      show some (u.after past, readNetworkCallback e.args (u.after past)) = _
      by_cases hret : int e.args.ret = minusOne
      · rw [readNetworkCallback, if_pos hret, if_pos hret]
        rfl
      · rw [readNetworkCallback, if_neg hret, if_neg hret, hfd, hbuf]
        rfl
  | sysSocketcall =>
      rw [hcall] at hread
      obtain ⟨hrecv, hfd, hbuf⟩ := hread
      obtain ⟨sock, hsock, rfl⟩ := Option.map_eq_some_iff.mp hfd
      rw [lookedUp_socketcall u past hcall]
      by_cases hws : ws = .w32
      · have hcase : observedCase e = some .recv := by
          rw [observedCase, if_pos ⟨hcall, hws⟩, hrecv]
        rw [observe_case hcase]
        by_cases hon : u.observeEverything = true
        · have hskip : ¬ ((u.after past).socketToAddress (int sock) = none
              ∧ (u.after past).observeEverything = false) :=
            fun hand => Bool.noConfusion (hon.symm.trans hand.2)
          refine ⟨saveSocket (int sock) ((recordedAs u past (int sock)).getD NetworkAddress.zero)
            (u.after past), rfl, ?_⟩
          rw [if_pos ⟨hws, hon⟩]
          exact recvCase_eq hsock hbuf hskip
        · -- nothing is recorded, and the call is left alone
          have hnone : recordedAs u past (int sock) = none := by
            by_contra hsome
            obtain ⟨b, hb⟩ := Option.ne_none_iff_exists'.mp hsome
            exact hon (recordedAs_on hb)
          refine ⟨u.after past, rfl, ?_⟩
          have hskip : (u.after past).socketToAddress (int sock) = none
              ∧ (u.after past).observeEverything = false :=
            ⟨hnone, Bool.not_eq_true _ ▸ hon⟩
          rw [if_neg fun hand => hon hand.2, recvCase, hsock]
          exact if_pos hskip
      · refine ⟨u.after past, rfl, ?_⟩
        rw [if_neg fun (hand : ws = .w32 ∧ _) => hws hand.1, observe, hcall]
        exact if_neg hws

/-- The callbacks an entry has are those due exactly if the entry is that of
    the peer and complete, and there is no all-observer. -/
theorem entry_due_iff {u : Setup K} (hon : u.observeEverything = true) {b : NetworkAddress}
    {it : NetworkAddress × List K} (hit : u.find b = some it) (peer : Option NetworkAddress)
    (buf bytesRead : Addr ws) :
    (it.2.map fun callback => (callback, it.1.peer, buf, bytesRead)).Perm
        (u.dueCalls peer buf bytesRead)
      ↔ peer.map NetworkAddress.peer = some b.peer ∧ it.2 = u.registered b ∧ u.forAll = none := by
  obtain ⟨hkey, hne, hsub⟩ := find_filed hit
  constructor
  · intro hperm
    obtain ⟨callback, rest, hcallbacks⟩ := List.exists_cons_of_ne_nil hne
    have hmem : (callback, it.1.peer, buf, bytesRead) ∈ u.dueCalls peer buf bytesRead := by
      refine hperm.subset (List.mem_map.mpr ⟨callback, ?_, rfl⟩)
      rw [hcallbacks]
      exact List.mem_cons_self
    cases peer with
    | none => exact absurd hmem List.not_mem_nil
    | some a =>
        obtain ⟨callback', -, heq⟩ := List.mem_map.mp hmem
        have hpeer : a.peer = b.peer := by
          rw [← hkey]
          exact congrArg (fun c => c.2.1) heq
        have hlength := hperm.length_eq
        rw [Setup.dueCalls, List.length_map, List.length_map, Setup.due, hon, if_pos rfl,
          List.length_append, Setup.registered, callbacksOf_congr u.addresses hpeer] at hlength
        have hle := hsub.length_le
        rw [Setup.registered] at hle
        -- the entry has too few callbacks for one that is not registered
        have hall : u.forAll.toList.length = 0 := by omega
        refine ⟨congrArg some hpeer, hsub.eq_of_length ?_, ?_⟩
        · rw [Setup.registered]
          omega
        · rw [List.length_eq_zero_iff, Option.toList_eq_nil_iff] at hall
          exact hall
  · rintro ⟨hpeer, hentry, hall⟩
    obtain ⟨a, rfl, hab⟩ := Option.map_eq_some_iff.mp hpeer
    have hdue : u.dueCalls (some a) buf bytesRead
        = it.2.map fun callback => (callback, it.1.peer, buf, bytesRead) := by
      rw [Setup.dueCalls, Setup.due, hall, hkey, ← hab, hentry, Setup.registered,
        Setup.registered, callbacksOf_congr u.addresses hab]
      simp
    rw [hdue]

/-- **A read calls whom it has to call** exactly if the monitor has recorded
    the address the socket is connected to, can find all its callbacks, and has
    no all-observer to call, or if nobody is to be called and nothing is looked
    up. -/
theorem read_fires_iff (u : Setup K) {events : List (NetEvent ws)} {m : NetworkMonitor K}
    (h : runs step events u.monitor = some m) {e : NetEvent ws} {fd : BitVec 32} {buf : Addr ws}
    (hread : ReadOf e fd buf) :
    Fires u events.reverse e fd buf (deliver e m) ↔ FiresWhen u events.reverse e fd := by
  rw [run_recordedAs u events h]
  obtain ⟨m', hfind, hobserve⟩ := observe_read u events.reverse hread
  rw [Fires, FiresWhen]
  rw [deliver, hobserve, Option.bind_eq_bind, Option.bind_some]
  by_cases hret : int e.args.ret = minusOne
  · rw [if_pos hret, if_pos hret]
    refine forall_congr' fun _ => ?_
    cases hlook : lookedUp u events.reverse e fd with
    | none => exact iff_of_true ⟨m', rfl⟩ rfl
    | some b =>
        refine iff_of_false ?_ fun hnone => nomatch hnone
        rintro ⟨m₁, heq⟩
        obtain ⟨calls, hnotify, heq⟩ := Option.map_eq_some_iff.mp heq
        cases heq
        obtain ⟨it, hit, hcalls⟩ := Option.map_eq_some_iff.mp hnotify
        rw [hfind] at hit
        exact (find_filed hit).2.1 (List.map_eq_nil_iff.mp hcalls)
  rw [if_neg hret, if_neg hret]
  cases hlook : lookedUp u events.reverse e fd with
  | none =>
      simp only [Option.map_none]
      constructor
      · rintro ⟨m₁, calls, heq, hperm⟩
        cases heq
        exact List.map_eq_nil_iff.mp (List.nil_perm.mp hperm)
      · intro hdue
        refine ⟨m', [], rfl, ?_⟩
        rw [Setup.dueCalls, hdue]
        exact List.Perm.refl _
  | some b =>
      simp only [Option.map_some, notifyForRead, hfind]
      have hon := lookedUp_on hlook
      cases hit : u.find b with
      | none =>
          -- the lookup fails, and its result is used all the same
          refine iff_of_false ?_ fun hwhen => nomatch hwhen.2.1
          rintro ⟨m₁, calls, heq, -⟩
          exact nomatch heq
      | some it =>
          simp only [Option.map_some, Option.some_inj]
          refine Iff.trans ?_ (entry_due_iff hon hit (connectedTo events.reverse fd) buf
            (ofInt ws (int e.args.ret)))
          constructor
          · rintro ⟨m₁, calls, ⟨rfl, rfl⟩, hperm⟩
            rwa [List.map_map] at hperm
          · intro hperm
            refine ⟨m', _, rfl, ?_⟩
            rwa [List.map_map]

/-- One address with one callback. -/
def observeOne (everything : Bool) : Setup Unit where
  observeEverything := everything
  addresses := [(⟨1, 80, "1.0.0.0 : 80"⟩, ())]
  forAll := none
  search := MapSearch.linear Unit

/-- Socket 3 is connected to that address. -/
def connectsSocket : NetEvent .w32 := socketcall 3 [3, 200, 16] ⟨1, 80⟩ 0

/-- Eight bytes are received from socket 3. -/
def receivesBytes : NetEvent .w32 := socketcall 10 [3, 200, 8, 0] ⟨1, 80⟩ 8

theorem read_fires_iff_connected :
    ∃ m, runs step [connectsSocket] (observeOne true).monitor = some m
      ∧ (Fires (observeOne true) [connectsSocket] receivesBytes 3 200 (deliver receivesBytes m)
        ↔ FiresWhen (observeOne true) [connectsSocket] receivesBytes 3) := by
  have hrun : runs step [connectsSocket] (observeOne true).monitor
      = some (saveSocket 3 ⟨1, 80, ""⟩ (observeOne true).monitor) := rfl
  exact ⟨_, hrun, read_fires_iff (observeOne true) hrun ⟨rfl, rfl, rfl⟩⟩

/-- Where addresses are observed one by one, no `recv` calls anyone. -/
theorem observed_address_not_fired :
    ∃ m, runs step [connectsSocket] (observeOne false).monitor = some m
      ∧ connectedTo [connectsSocket] 3 = some ⟨1, 80, ""⟩
      ∧ (observeOne false).registered ⟨1, 80, ""⟩ = [()]
      ∧ (deliver receivesBytes m).map Prod.snd = some [] :=
  ⟨_, rfl, rfl, rfl, rfl⟩

end DytanNetworkMonitor
