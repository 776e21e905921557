import Dytan.SyscallStateProofs

/-! # System-call handlers — what they erase against what the kernel writes

    The `Handle_*` functions and the table `main` registers them in.  A
    handler either does nothing, or erases the entries of some ranges of
    `memTaintMap`, or keeps the table of open files.

    The kernel's side is the ranges a successful call writes
    (`kernelRanges`), with structures of the kernel's own sizes and mappings of
    whole pages: the structures of user space that the handlers name may be
    larger.  A handler fits its call when the entries it erases are those of
    the bytes written, for every taint map; where it does not fit, the result
    is right only for the maps without an entry in the difference of the two
    (`cleansExactly_iff`). -/

namespace DytanSyscallFunctions

open DytanBitset DytanRegister DytanTaintState DytanMarkFlow DytanSyscallState

variable {ws : WordSize} {N : Nat}

/-- The sizes of the structures that calls fill in: as the tool was compiled, or
    as the kernel has them. -/
structure StructSizes where
  stat64 : Nat
  timeval : Nat
  timezone : Nat
  sigaction : Nat
  sigset : Nat
  time : Nat
  utsname : Nat
deriving DecidableEq, Repr

/-- An observer's function.  `none` is an `abort`, a failed assertion or a
    memory fault. -/
abbrev Handler (ws : WordSize) (N : Nat) :=
  StructSizes → AppMemory ws → SyscallArguments ws → Globals ws N → Option (Globals ws N)

/-! ## The handlers -/

/-- The body `//pass`. -/
def pass : Handler ws N := fun _ _ _ g => some g

/-- The body of the handlers under `// Clear taint`: erase range by range. -/
def clearTaint (ranges : StructSizes → SyscallArguments ws → List (Addr ws × Addr ws)) :
    Handler ws N := fun sz _ args g =>
  some (g.setMem ((ranges sz args).foldl (fun m r => eraseRange r.1 r.2 m) g.memTaintMap))

/-- A structure of `size` bytes at `start`. -/
def structAt (start : Addr ws) (size : Nat) : Addr ws × Addr ws := (start, BitVec.ofNat ws.bits size)

def handleAccess : Handler ws N := pass
def handleAlarm : Handler ws N := pass
def handleBrk : Handler ws N := pass
def handleChmod : Handler ws N := pass
def handleClose : Handler ws N := pass
def handleTgkill : Handler ws N := pass

/-- `openFiles[fd2] = openFiles[fd1]`: reading a missing entry inserts it. -/
def handleDup : Handler ws N := fun _ _ args g =>
  let fd1 := int args.arg0
  let fd2 := int args.ret
  let name := (g.openFiles fd1).getD ""
  let files := Function.update g.openFiles fd1 (some name)
  some { g with openFiles := Function.update files fd2 (some name) }

def handleFcntl64 : Handler ws N := pass
def handleFlock : Handler ws N := pass

def handleFstat64 : Handler ws N :=
  clearTaint fun sz args => [structAt args.arg1 sz.stat64]

def handleFsync : Handler ws N := pass
def handleFtruncate : Handler ws N := pass

/-- `count` is the `unsigned int` the third argument is cast to. -/
def handleGetdents64 : Handler ws N :=
  clearTaint fun _ args => [(args.arg1, (int args.arg2).setWidth ws.bits)]

def handleGetpid : Handler ws N := pass
def handleGettid : Handler ws N := pass

def handleGettimeofday : Handler ws N :=
  clearTaint fun sz args => [structAt args.arg0 sz.timeval, structAt args.arg1 sz.timezone]

def handleGetuid32 : Handler ws N := pass
def handleIoctl : Handler ws N := pass
def handleLink : Handler ws N := pass
def handleLlseek : Handler ws N := pass
def handleLseek : Handler ws N := pass

def handleLstat64 : Handler ws N :=
  clearTaint fun sz args => [structAt args.arg1 sz.stat64]

def handleMmap : Handler ws N := clearTaint fun _ args => [(args.ret, args.arg1)]
def handleMmap2 : Handler ws N := clearTaint fun _ args => [(args.ret, args.arg1)]

def handleMunmap : Handler ws N := pass
def handleMprotect : Handler ws N := pass

/-- `openFiles[args.ret] = (const char *) args.arg0`. -/
def handleOpen : Handler ws N := fun _ mem args g => do
  let name ← mem.cString args.arg0
  some { g with openFiles := Function.update g.openFiles (int args.ret) (some name) }

def handleRead : Handler ws N := pass

/-- `int ret = args.ret`, added to the start of the buffer. -/
def handleReadlink : Handler ws N :=
  clearTaint fun _ args => [(args.arg1, ofInt ws (int args.ret))]

def handleRename : Handler ws N := pass

def handleRtSigaction : Handler ws N :=
  clearTaint fun sz args => if args.arg2 = 0 then [] else [structAt args.arg2 sz.sigaction]

def handleRtSigprocmask : Handler ws N :=
  clearTaint fun sz args => if args.arg2 = 0 then [] else [structAt args.arg2 sz.sigset]

def handleSetThreadArea : Handler ws N := pass

/-- The numbers of `linux/net.h` that `Handle_SOCKETCALL` lists: all up to
    `SYS_RECVMSG` but `SYS_SOCKETPAIR`, which is 8. -/
def knownSocketcall (num : BitVec 32) : Bool :=
  [1, 2, 3, 4, 5, 6, 7, 9, 10, 11, 12, 13, 14, 15, 16, 17].contains num

/-- No case does anything; the default case aborts. -/
def handleSocketcall : Handler ws N := fun _ _ args g =>
  if knownSocketcall (int args.arg0) then some g else none

def handleStat64 : Handler ws N :=
  clearTaint fun sz args => [structAt args.arg1 sz.stat64]

def handleTime : Handler ws N :=
  clearTaint fun sz args => if args.arg0 = 0 then [] else [structAt args.arg0 sz.time]

def handleUname : Handler ws N :=
  clearTaint fun sz args => [structAt args.arg0 sz.utsname]

def handleUnlink : Handler ws N := pass
def handleUtime : Handler ws N := pass
def handleWrite : Handler ws N := pass
def handleWritev : Handler ws N := pass
def handlePoll : Handler ws N := pass

/-- The calls that have an observer in some build. -/
inductive Sys where
  | fcntl64 | fstat64 | getuid32 | lstat64 | stat64 | llseek | mmap2 | socketcall
  | fcntl | fstat | getuid | lstat | stat
  | access | alarm | brk | chmod | close | dup | flock | fsync | ftruncate | getdents64
  | getpid | gettimeofday | ioctl | link | lseek | mmap | mprotect | munmap
  | «open» | read | readlink | rename | rt_sigaction | rt_sigprocmask | set_thread_area
  | time | uname | unlink | utime | write | writev | poll | gettid | tgkill
deriving DecidableEq, Repr

/-- `monitor->addObserver(SYS_…, Handle_…, 0)`; the first two groups are the
    branches of `#if __WORDSIZE == 32`. -/
def observer : WordSize → Sys → Option (Handler ws N)
  | .w32, .fcntl64 => some handleFstat64
  | .w32, .fstat64 => some handleFstat64
  | .w32, .getuid32 => some handleGetuid32
  | .w32, .lstat64 => some handleLstat64
  | .w32, .stat64 => some handleStat64
  | .w32, .llseek => some handleLlseek
  | .w32, .mmap2 => some handleMmap2
  | .w32, .socketcall => some handleSocketcall
  | .w64, .fcntl => some handleFstat64
  | .w64, .fstat => some handleFstat64
  | .w64, .getuid => some handleGetuid32
  | .w64, .lstat => some handleLstat64
  | .w64, .stat => some handleStat64
  | _, .access => some handleAccess
  | _, .alarm => some handleAlarm
  | _, .brk => some handleBrk
  | _, .chmod => some handleChmod
  | _, .close => some handleClose
  | _, .dup => some handleDup
  | _, .flock => some handleFlock
  | _, .fsync => some handleFsync
  | _, .ftruncate => some handleFtruncate
  | _, .getdents64 => some handleGetdents64
  | _, .getpid => some handleGetpid
  | _, .gettimeofday => some handleGettimeofday
  | _, .ioctl => some handleIoctl
  | _, .link => some handleLink
  | _, .lseek => some handleLseek
  | _, .mmap => some handleMmap
  | _, .mprotect => some handleMprotect
  | _, .munmap => some handleMunmap
  | _, .open => some handleOpen
  | _, .read => some handleRead
  | _, .readlink => some handleReadlink
  | _, .rename => some handleRename
  | _, .rt_sigaction => some handleRtSigaction
  | _, .rt_sigprocmask => some handleRtSigprocmask
  | _, .set_thread_area => some handleSetThreadArea
  | _, .time => some handleTime
  | _, .uname => some handleUname
  | _, .unlink => some handleUnlink
  | _, .utime => some handleUtime
  | _, .write => some handleWrite
  | _, .writev => some handleWritev
  | _, .poll => some handlePoll
  | _, .gettid => some handleGettid
  | _, .tgkill => some handleTgkill
  | _, _ => none

/-! ## What the kernel writes -/

/-- A call as the kernel sees it.  The old `mmap` of 32-bit builds takes its
    arguments in a block of memory; `blockLength` is the length found there. -/
structure KernelCall (ws : WordSize) where
  args : SyscallArguments ws
  blockLength : Addr ws
deriving DecidableEq, Repr

/-- What a kernel writes by: the sizes of its structures and of a page. -/
structure Kernel where
  sizes : StructSizes
  pageSize : Nat
deriving DecidableEq, Repr

/-- A length rounded up to whole pages. -/
def Kernel.wholePages (kernel : Kernel) (length : Nat) : Nat :=
  (length + kernel.pageSize - 1) / kernel.pageSize * kernel.pageSize

/-- A structure of `size` bytes, unless the pointer is `NULL`. -/
def unlessNull {α : Type} (start : Addr ws) (size : α) : List (Addr ws × α) :=
  if start = 0 then [] else [(start, size)]

/-- The ranges a successful call writes. -/
def kernelRanges (kernel : Kernel) (ws : WordSize) (sys : Sys) (k : KernelCall ws) :
    List (Addr ws × Nat) :=
  match sys with
  | .fstat64 | .fstat | .lstat64 | .lstat | .stat64 | .stat =>
      [(k.args.arg1, kernel.sizes.stat64)]
  | .getdents64 | .readlink => [(k.args.arg1, k.args.ret.toNat)]
  | .gettimeofday =>
      unlessNull k.args.arg0 kernel.sizes.timeval ++ unlessNull k.args.arg1 kernel.sizes.timezone
  | .time => unlessNull k.args.arg0 kernel.sizes.time
  | .rt_sigaction => unlessNull k.args.arg2 kernel.sizes.sigaction
  | .rt_sigprocmask => unlessNull k.args.arg2 kernel.sizes.sigset
  | .uname => [(k.args.arg0, kernel.sizes.utsname)]
  | .mmap =>
      [(k.args.ret, kernel.wholePages (if ws = .w32 then k.blockLength else k.args.arg1).toNat)]
  | .mmap2 => [(k.args.ret, kernel.wholePages k.args.arg1.toNat)]
  | _ => []

/-- The bytes of some ranges. -/
def bytes (ranges : List (Addr ws × Nat)) : Set (Addr ws) :=
  {a | ∃ r ∈ ranges, r.1.toNat ≤ a.toNat ∧ a.toNat < r.1.toNat + r.2}

/-- The calls whose handler clears taint. -/
def clears : Sys → Bool
  | .fcntl64 | .fcntl | .fstat64 | .fstat | .lstat64 | .lstat | .stat64 | .stat => true
  | .getdents64 | .readlink | .gettimeofday | .time | .rt_sigaction | .rt_sigprocmask => true
  | .uname | .mmap | .mmap2 => true
  | _ => false

/-- A successful call, by the contract of the kernel: the bytes it writes lie
    below the top of the address space, and `readlink` returns an `int`. -/
structure Succeeds (kernel : Kernel) (ws : WordSize) (sys : Sys) (k : KernelCall ws) :
    Prop where
  ret : k.args.ret ≠ -1
  noWrap : ∀ r ∈ kernelRanges kernel ws sys k, r.1.toNat + r.2 < 2 ^ ws.bits
  readlink : sys = .readlink → k.args.ret.toNat < 2 ^ 31

/-- The map lost the entries of the bytes `F` and no other entry. -/
structure CleansExactly (F : Set (Addr ws)) (m m' : TaintMap ws) : Prop where
  cleaned : ∀ a ∈ F, m'[a]? = none
  kept : ∀ a, a ∉ F → m'[a]? = m[a]?

/-- Erasing `E` where `F` was written is right for the maps that have no entry
    in the difference of the two. -/
theorem cleansExactly_iff {E F : Set (Addr ws)} {m m' : TaintMap ws}
    (hin : ∀ a ∈ E, m'[a]? = none) (hout : ∀ a, a ∉ E → m'[a]? = m[a]?) :
    CleansExactly F m m' ↔ ∀ a ∈ m, (a ∈ E ↔ a ∈ F) := by
  have hkey : ∀ a : Addr ws, a ∈ m → m[a]? ≠ none := by
    intro a ha hnone
    rw [Std.ExtTreeMap.mem_iff_isSome_getElem?, hnone] at ha
    exact nomatch ha
  constructor
  · intro h a ha
    constructor
    · intro haE
      by_contra haF
      exact hkey a ha ((h.kept a haF).symm.trans (hin a haE))
    · intro haF
      by_contra haE
      exact hkey a ha ((hout a haE).symm.trans (h.cleaned a haF))
  · intro h
    refine ⟨fun a haF => ?_, fun a haF => ?_⟩
    · by_cases haE : a ∈ E
      · exact hin a haE
      · rw [hout a haE]
        refine Std.ExtTreeMap.getElem?_eq_none fun ha => haE ((h a ha).mpr haF)
    · by_cases haE : a ∈ E
      · rw [hin a haE]
        exact (Std.ExtTreeMap.getElem?_eq_none fun ha => haF ((h a ha).mp haE)).symm
      · exact hout a haE

/-- What the erasing loops of a handler erase. -/
def erased (ranges : List (Addr ws × Addr ws)) : Set (Addr ws) :=
  {a | ∃ r ∈ ranges, a ∈ addrRange r.1 r.2}

theorem foldl_eraseRange_getElem? (ranges : List (Addr ws × Addr ws)) (m : TaintMap ws)
    (a : Addr ws) :
    (a ∈ erased ranges → (ranges.foldl (fun m r => eraseRange r.1 r.2 m) m)[a]? = none)
      ∧ (a ∉ erased ranges →
          (ranges.foldl (fun m r => eraseRange r.1 r.2 m) m)[a]? = m[a]?) := by
  induction ranges generalizing m with
  | nil => exact ⟨fun ⟨_, hr, _⟩ => absurd hr List.not_mem_nil, fun _ => rfl⟩
  | cons r rest ih =>
      rw [List.foldl_cons]
      obtain ⟨hin, hout⟩ := ih (eraseRange r.1 r.2 m)
      have hget := eraseRange_getElem? r.1 r.2 m a
      by_cases hrest : a ∈ erased rest
      · refine ⟨fun _ => hin hrest, fun h => absurd ?_ h⟩
        obtain ⟨r', hr', ha⟩ := hrest
        exact ⟨r', List.mem_cons_of_mem _ hr', ha⟩
      · rw [hout hrest, hget]
        by_cases ha : a ∈ addrRange r.1 r.2
        · exact ⟨fun _ => if_pos ha, fun h => absurd ⟨r, List.mem_cons_self, ha⟩ h⟩
        · refine ⟨fun ⟨r', hr', ha'⟩ => ?_, fun _ => if_neg ha⟩
          rcases List.mem_cons.mp hr' with rfl | hr'
          · exact absurd ha' ha
          · exact absurd ⟨r', hr', ha'⟩ hrest

/-- A clearing handler fits its call exactly on the maps that have no entry in
    the difference of what it erases and what the kernel wrote. -/
theorem clearTaint_cleans_iff
    (ranges : StructSizes → SyscallArguments ws → List (Addr ws × Addr ws)) (sz : StructSizes)
    (mem : AppMemory ws) (args : SyscallArguments ws) (g : Globals ws N) (F : Set (Addr ws)) :
    (∃ g', clearTaint ranges sz mem args g = some g'
        ∧ CleansExactly F g.memTaintMap g'.memTaintMap)
      ↔ ∀ a ∈ g.memTaintMap, (a ∈ erased (ranges sz args) ↔ a ∈ F) := by
  rw [← cleansExactly_iff
    (fun a ha => (foldl_eraseRange_getElem? (ranges sz args) g.memTaintMap a).1 ha)
    (fun a ha => (foldl_eraseRange_getElem? (ranges sz args) g.memTaintMap a).2 ha)]
  constructor
  · rintro ⟨g', hg', h⟩
    cases hg'
    exact h
  · exact fun h => ⟨_, rfl, h⟩

/-! ## Which calls fit -/

/-- No entry in the difference of what a loop over `size` bytes at `start` erases
    and the `written` bytes there.  Where the end of the loop wraps around the
    address space it erases nothing. -/
def NoEntryBetween (start size : Addr ws) (written : Nat) (m : TaintMap ws) : Prop :=
  if start.toNat + size.toNat < 2 ^ ws.bits then
    ∀ a ∈ m, ¬ (start.toNat + min size.toNat written ≤ a.toNat
      ∧ a.toNat < start.toNat + max size.toNat written)
  else ∀ a ∈ m, ¬ (start.toNat ≤ a.toNat ∧ a.toNat < start.toNat + written)

/-- The condition on the taint map under which the handler of a call fits it.
    `fcntl` writes nothing and its handler erases a `struct stat64` at its
    second argument; `getdents64` writes what it returns and its handler erases
    what was asked for; `gettimeofday` skips `NULL` and its handler does not;
    the mappings of whole pages may end behind the length, which the old `mmap`
    finds elsewhere; the other calls write a structure as long as the kernel
    has it. -/
def Spared (sz : StructSizes) (kernel : Kernel) (ws : WordSize) (sys : Sys) (k : KernelCall ws)
    (m : TaintMap ws) : Prop :=
  match sys with
  | .fcntl64 | .fcntl => NoEntryBetween k.args.arg1 (BitVec.ofNat ws.bits sz.stat64) 0 m
  | .fstat64 | .fstat | .lstat64 | .lstat | .stat64 | .stat =>
      NoEntryBetween k.args.arg1 (BitVec.ofNat ws.bits sz.stat64) kernel.sizes.stat64 m
  | .getdents64 =>
      NoEntryBetween k.args.arg1 ((int k.args.arg2).setWidth ws.bits) k.args.ret.toNat m
  | .gettimeofday => ∀ a ∈ m,
      (a ∈ addrRange k.args.arg0 (BitVec.ofNat ws.bits sz.timeval)
        ∨ a ∈ addrRange k.args.arg1 (BitVec.ofNat ws.bits sz.timezone))
      ↔ ((k.args.arg0 ≠ 0 ∧ a ∈ bytes [(k.args.arg0, kernel.sizes.timeval)])
        ∨ (k.args.arg1 ≠ 0 ∧ a ∈ bytes [(k.args.arg1, kernel.sizes.timezone)]))
  | .time => k.args.arg0 ≠ 0 →
      NoEntryBetween k.args.arg0 (BitVec.ofNat ws.bits sz.time) kernel.sizes.time m
  | .rt_sigaction => k.args.arg2 ≠ 0 →
      NoEntryBetween k.args.arg2 (BitVec.ofNat ws.bits sz.sigaction) kernel.sizes.sigaction m
  | .rt_sigprocmask => k.args.arg2 ≠ 0 →
      NoEntryBetween k.args.arg2 (BitVec.ofNat ws.bits sz.sigset) kernel.sizes.sigset m
  | .uname => NoEntryBetween k.args.arg0 (BitVec.ofNat ws.bits sz.utsname) kernel.sizes.utsname m
  | .mmap => NoEntryBetween k.args.ret k.args.arg1
      (kernel.wholePages (if ws = .w32 then k.blockLength else k.args.arg1).toNat) m
  | .mmap2 => NoEntryBetween k.args.ret k.args.arg1 (kernel.wholePages k.args.arg1.toNat) m
  | _ => True

theorem mem_erased_singleton {r : Addr ws × Addr ws} {a : Addr ws} :
    a ∈ erased [r] ↔ a ∈ addrRange r.1 r.2 := by
  constructor
  · rintro ⟨r', hr', ha⟩
    cases List.mem_singleton.mp hr'
    exact ha
  · exact fun ha => ⟨r, List.mem_cons_self, ha⟩

theorem mem_bytes_singleton {r : Addr ws × Nat} {a : Addr ws} :
    a ∈ bytes [r] ↔ r.1.toNat ≤ a.toNat ∧ a.toNat < r.1.toNat + r.2 := by
  constructor
  · rintro ⟨r', hr', ha⟩
    cases List.mem_singleton.mp hr'
    exact ha
  · exact fun ha => ⟨r, List.mem_cons_self, ha⟩

/-- The ranges the handler of a call erases. -/
def handlerRanges (sys : Sys) (sz : StructSizes) (args : SyscallArguments ws) :
    List (Addr ws × Addr ws) :=
  match sys with
  | .fcntl64 | .fcntl | .fstat64 | .fstat | .lstat64 | .lstat | .stat64 | .stat =>
      [structAt args.arg1 sz.stat64]
  | .getdents64 => [(args.arg1, (int args.arg2).setWidth ws.bits)]
  | .readlink => [(args.arg1, ofInt ws (int args.ret))]
  | .gettimeofday => [structAt args.arg0 sz.timeval, structAt args.arg1 sz.timezone]
  | .time => unlessNull args.arg0 (BitVec.ofNat ws.bits sz.time)
  | .rt_sigaction => unlessNull args.arg2 (BitVec.ofNat ws.bits sz.sigaction)
  | .rt_sigprocmask => unlessNull args.arg2 (BitVec.ofNat ws.bits sz.sigset)
  | .uname => [structAt args.arg0 sz.utsname]
  | .mmap | .mmap2 => [(args.ret, args.arg1)]
  | _ => []

theorem observer_clears {sys : Sys} {handler : Handler ws N} (hreg : observer ws sys = some handler)
    (hclears : clears sys = true) : handler = clearTaint (handlerRanges sys) := by
  cases sys with
  | fcntl64 | fstat64 | lstat64 | stat64 | mmap2 | fcntl | fstat | lstat | stat =>
      cases ws with
      | w32 => cases hreg <;> rfl
      | w64 => cases hreg <;> rfl
  | getdents64 | readlink | gettimeofday | time | rt_sigaction | rt_sigprocmask | uname | mmap =>
      cases ws with
      | w32 => cases hreg; rfl
      | w64 => cases hreg; rfl
  | _ => exact nomatch hclears

theorem observer_dup : observer ws .dup = some (handleDup : Handler ws N) := by
  cases ws <;> rfl

theorem observer_open : observer ws .open = some (handleOpen : Handler ws N) := by
  cases ws <;> rfl

theorem observer_socketcall {handle : Handler ws N}
    (hreg : observer ws .socketcall = some handle) : handle = handleSocketcall := by
  cases ws with
  | w32 => exact (Option.some.inj hreg).symm
  | w64 => exact nomatch hreg

/-- The other handlers pass. -/
theorem observer_passes {sys : Sys} {handle : Handler ws N} (hreg : observer ws sys = some handle)
    (hclears : clears sys = false) (hdup : sys ≠ .dup) (hopen : sys ≠ .open)
    (hsocket : sys ≠ .socketcall) : handle = pass := by
  cases sys with
  | dup => exact absurd rfl hdup
  | «open» => exact absurd rfl hopen
  | socketcall => exact absurd rfl hsocket
  | fcntl64 | fstat64 | lstat64 | stat64 | mmap2 | fcntl | fstat | lstat | stat
    | getdents64 | readlink | gettimeofday | time | rt_sigaction | rt_sigprocmask | uname
    | mmap => exact nomatch hclears
  | _ =>
      cases ws with
      | w32 => cases hreg <;> rfl
      | w64 => cases hreg <;> rfl

theorem handlerRanges_eq_nil {sys : Sys} (hclears : clears sys = false) (sz : StructSizes)
    (args : SyscallArguments ws) : handlerRanges sys sz args = [] := by
  cases sys with
  | fcntl64 | fstat64 | lstat64 | stat64 | mmap2 | fcntl | fstat | lstat | stat
    | getdents64 | readlink | gettimeofday | time | rt_sigaction | rt_sigprocmask | uname
    | mmap => exact nomatch hclears
  | _ => rfl

theorem ofInt_int {x : Addr ws} (h : x.toNat < 2 ^ 31) : ofInt ws (int x) = x := by
  have hint : (int x).toNat = x.toNat := by
    rw [int, BitVec.toNat_setWidth]
    exact Nat.mod_eq_of_lt (by omega)
  refine BitVec.eq_of_toNat_eq ?_
  rw [ofInt_toNat (by omega), hint]

/-- **A loop fits what was written at the same start** exactly on the maps that
    have no entry between the two ends. -/
theorem noEntryBetween_iff {start size : Addr ws} {written : Nat} {m : TaintMap ws} :
    (∀ a ∈ m, (a ∈ erased [(start, size)] ↔ a ∈ bytes [(start, written)]))
      ↔ NoEntryBetween start size written m := by
  rw [NoEntryBetween]
  by_cases hwrap : start.toNat + size.toNat < 2 ^ ws.bits
  · rw [if_pos hwrap]
    refine forall_congr' fun a => forall_congr' fun _ => ?_
    rw [mem_erased_singleton, mem_bytes_singleton, mem_addrRange_of_lt hwrap]
    dsimp only
    omega
  · rw [if_neg hwrap]
    refine forall_congr' fun a => forall_congr' fun _ => ?_
    -- the end of the erased range has wrapped around, so the loop does not run
    have hnone : a ∉ addrRange start size := by
      rw [mem_addrRange, BitVec.le_def, BitVec.lt_def, BitVec.toNat_add]
      have hstart := start.isLt
      have hsize := size.isLt
      rw [Nat.mod_eq_sub_mod (by omega), Nat.mod_eq_of_lt (by omega)]
      omega
    rw [mem_erased_singleton, mem_bytes_singleton]
    exact ⟨fun h hin => hnone (h.mpr hin), fun h => iff_of_false hnone h⟩

theorem mem_erased_append {ranges ranges' : List (Addr ws × Addr ws)} {a : Addr ws} :
    a ∈ erased (ranges ++ ranges') ↔ a ∈ erased ranges ∨ a ∈ erased ranges' := by
  constructor
  · rintro ⟨r, hr, ha⟩
    rcases List.mem_append.mp hr with hr | hr
    · exact Or.inl ⟨r, hr, ha⟩
    · exact Or.inr ⟨r, hr, ha⟩
  · rintro (⟨r, hr, ha⟩ | ⟨r, hr, ha⟩)
    · exact ⟨r, List.mem_append_left _ hr, ha⟩
    · exact ⟨r, List.mem_append_right _ hr, ha⟩

theorem mem_bytes_append {ranges ranges' : List (Addr ws × Nat)} {a : Addr ws} :
    a ∈ bytes (ranges ++ ranges') ↔ a ∈ bytes ranges ∨ a ∈ bytes ranges' := by
  constructor
  · rintro ⟨r, hr, ha⟩
    rcases List.mem_append.mp hr with hr | hr
    · exact Or.inl ⟨r, hr, ha⟩
    · exact Or.inr ⟨r, hr, ha⟩
  · rintro (⟨r, hr, ha⟩ | ⟨r, hr, ha⟩)
    · exact ⟨r, List.mem_append_left _ hr, ha⟩
    · exact ⟨r, List.mem_append_right _ hr, ha⟩

theorem mem_bytes_unlessNull {start : Addr ws} {size : Nat} {a : Addr ws} :
    a ∈ bytes (unlessNull start size) ↔ start ≠ 0 ∧ a ∈ bytes [(start, size)] := by
  rw [unlessNull]
  by_cases h : start = 0
  · rw [if_pos h]
    exact iff_of_false (fun ⟨_, hr, _⟩ => absurd hr List.not_mem_nil) fun hh => hh.1 h
  · rw [if_neg h]
    exact (and_iff_right h).symm

/-- A structure that both sides skip at `NULL`. -/
theorem unlessNull_spared {start size : Addr ws} {written : Nat} {m : TaintMap ws} :
    (∀ a ∈ m, (a ∈ erased (unlessNull start size) ↔ a ∈ bytes (unlessNull start written)))
      ↔ (start ≠ 0 → NoEntryBetween start size written m) := by
  rw [unlessNull, unlessNull]
  by_cases h : start = 0
  · rw [if_pos h, if_pos h]
    refine iff_of_true (fun a _ => iff_of_false ?_ ?_) (fun hne => absurd h hne)
    · exact fun ⟨_, hr, _⟩ => absurd hr List.not_mem_nil
    · exact fun ⟨_, hr, _⟩ => absurd hr List.not_mem_nil
  · rw [if_neg h, if_neg h, noEntryBetween_iff]
    exact ⟨fun hm _ => hm, fun hm => hm h⟩

/-- `fcntl` writes nothing. -/
theorem fcntl_spared {start size : Addr ws} {m : TaintMap ws} :
    (∀ a ∈ m, (a ∈ erased [(start, size)] ↔ a ∈ bytes [])) ↔ NoEntryBetween start size 0 m := by
  rw [← noEntryBetween_iff]
  refine forall_congr' fun a => forall_congr' fun _ => iff_congr Iff.rfl ?_
  rw [mem_bytes_singleton]
  exact iff_of_false (fun ⟨_, hr, _⟩ => absurd hr List.not_mem_nil) (by omega)

/-- `gettimeofday` fills in what is not `NULL`. -/
theorem gettimeofday_spared {sz : StructSizes} {kernel : Kernel} {k : KernelCall ws}
    (m : TaintMap ws) :
    (∀ a ∈ m, (a ∈ erased (handlerRanges .gettimeofday sz k.args)
        ↔ a ∈ bytes (kernelRanges kernel ws .gettimeofday k)))
      ↔ Spared sz kernel ws .gettimeofday k m := by
  refine forall_congr' fun a => forall_congr' fun _ => iff_congr ?_ ?_
  · show a ∈ erased ([structAt k.args.arg0 sz.timeval] ++ [structAt k.args.arg1 sz.timezone]) ↔ _
    rw [mem_erased_append, mem_erased_singleton, mem_erased_singleton]
    rfl
  · rw [kernelRanges, mem_bytes_append, mem_bytes_unlessNull, mem_bytes_unlessNull]

/-- **A clearing handler fits its call** — the taint map loses the entries of
    the bytes the kernel wrote and no other — exactly where the map has no
    entry in the difference that the call leaves. -/
theorem handler_fits_iff {sz : StructSizes} {kernel : Kernel} {sys : Sys} {handler : Handler ws N}
    (hreg : observer ws sys = some handler) (hclears : clears sys = true)
    {k : KernelCall ws} (hok : Succeeds kernel ws sys k) (mem : AppMemory ws) (g : Globals ws N) :
    (∃ g', handler sz mem k.args g = some g'
        ∧ CleansExactly (bytes (kernelRanges kernel ws sys k)) g.memTaintMap g'.memTaintMap)
      ↔ Spared sz kernel ws sys k g.memTaintMap := by
  rw [observer_clears hreg hclears, clearTaint_cleans_iff]
  cases sys with
  | fcntl64 | fcntl => exact fcntl_spared
  | gettimeofday => exact gettimeofday_spared g.memTaintMap
  | readlink =>
      refine iff_of_true (fun a _ => ?_) trivial
      rw [handlerRanges, ofInt_int (hok.readlink rfl), kernelRanges, mem_erased_singleton,
        mem_bytes_singleton]
      exact mem_addrRange_of_lt (hok.noWrap _ List.mem_cons_self)
  | time | rt_sigaction | rt_sigprocmask => exact unlessNull_spared
  | getdents64 | fstat64 | fstat | lstat64 | lstat | stat64 | stat | uname | mmap | mmap2 =>
      exact noEntryBetween_iff
  | _ => exact nomatch hclears

/-- The sizes of the structures in user space, on 64-bit Linux. -/
def linux64 : StructSizes := ⟨144, 16, 8, 152, 128, 8, 390⟩

/-- Its kernel: signals have smaller structures there. -/
def linux64Kernel : Kernel := ⟨⟨144, 16, 8, 32, 8, 8, 390⟩, 4096⟩

/-- A state with mark 0 on one byte. -/
def markedAt (a : Addr .w64) : Globals .w64 1 :=
  (Globals.init .w64 1).setMem (Std.ExtTreeMap.insert ∅ a ⟨[1], 1⟩)

theorem mem_markedAt {a b : Addr .w64} : b ∈ (markedAt a).memTaintMap ↔ b = a := by
  show b ∈ Std.ExtTreeMap.insert ∅ a _ ↔ _
  rw [Std.ExtTreeMap.mem_insert, Std.compare_eq_iff_eq]
  simp [eq_comm]

/-- `rt_sigprocmask(0, NULL, 100, 8)`. -/
def maskQuery : KernelCall .w64 where
  args := SyscallArguments.ofArgs 0 0 100 0
  blockLength := 0

theorem maskQuery_succeeds : Succeeds linux64Kernel .w64 .rt_sigprocmask maskQuery where
  ret := by decide
  noWrap := by
    intro r hr
    cases List.mem_singleton.mp hr
    decide
  readlink := fun h => nomatch h

/-- `rt_sigprocmask` writes eight bytes and its handler erases the larger
    `sigset_t` of user space: right for a mark on the first of them, wrong for
    one behind them. -/
theorem handler_fits_iff_maskQuery :
    (∃ g', handleRtSigprocmask linux64 (AppMemory.unreadable _) maskQuery.args (markedAt 100)
          = some g'
        ∧ CleansExactly (bytes (kernelRanges linux64Kernel .w64 .rt_sigprocmask maskQuery))
          (markedAt 100).memTaintMap g'.memTaintMap)
      ∧ ¬ ∃ g', handleRtSigprocmask linux64 (AppMemory.unreadable _) maskQuery.args (markedAt 164)
          = some g'
        ∧ CleansExactly (bytes (kernelRanges linux64Kernel .w64 .rt_sigprocmask maskQuery))
          (markedAt 164).memTaintMap g'.memTaintMap := by
  constructor
  · refine (handler_fits_iff rfl rfl maskQuery_succeeds _ _).mpr fun _ a ha => ?_
    rw [mem_markedAt.mp ha]
    decide
  · refine fun h => (handler_fits_iff rfl rfl maskQuery_succeeds _ _).mp h (by decide) 164
      (mem_markedAt.mpr rfl) ?_
    decide

/-- `getdents64(3, 100, 8)` at the end of a directory: it returns 0. -/
def endOfDirectory : KernelCall .w64 where
  args := SyscallArguments.ofArgs 3 100 8 0
  blockLength := 0

theorem endOfDirectory_succeeds : Succeeds linux64Kernel .w64 .getdents64 endOfDirectory where
  ret := by decide
  noWrap := by
    intro r hr
    cases List.mem_singleton.mp hr
    decide
  readlink := fun h => nomatch h

/-- A tainted byte in the buffer of a `getdents64` that writes nothing loses
    its entry. -/
theorem getdents64_erases_unwritten :
    Succeeds linux64Kernel .w64 .getdents64 endOfDirectory
      ∧ (100 : Addr .w64) ∉ bytes (kernelRanges linux64Kernel .w64 .getdents64 endOfDirectory)
      ∧ ∃ b g', (markedAt 100).memTaintMap[(100 : Addr .w64)]? = some b
        ∧ handleGetdents64 linux64 (AppMemory.unreadable _) endOfDirectory.args (markedAt 100)
          = some g'
        ∧ g'.memTaintMap[(100 : Addr .w64)]? = none := by
  have hin : (100 : Addr .w64) ∈ erased (handlerRanges .getdents64 linux64 endOfDirectory.args) :=
    mem_erased_singleton.mpr (mem_addrRange.mpr (by decide))
  refine ⟨endOfDirectory_succeeds, fun h => ?_, _, _, Std.ExtTreeMap.getElem?_insert_self, rfl,
    (foldl_eraseRange_getElem? _ _ _).1 hin⟩
  have hlt := (mem_bytes_singleton.mp h).2
  exact absurd hlt (by decide)

end DytanSyscallFunctions
