import Dytan.MarkFlowProofs

/-! # What the system-call observers share

    `SyscallMonitor::endSyscall` calls each observer of a call with its number,
    its arguments and its result.  Observers read the memory of the
    application, and they change the taint map, the generator of taint marks,
    the table of open files and the byte counter of per-offset tainting.

    Two loops occur in almost all of them: one erases the entries of a range,
    the other gives the bytes of a range copies of one bitset.  Both are
    described here by what a lookup finds afterwards. -/

namespace DytanSyscallState

open DytanBitset DytanRegister DytanTaintState DytanMarkFlow

variable {ws : WordSize} {N : Nat}

/-- `syscall_arguments`. -/
structure SyscallArguments (ws : WordSize) where
  num : Addr ws
  arg0 : Addr ws
  arg1 : Addr ws
  arg2 : Addr ws
  arg3 : Addr ws
  arg4 : Addr ws
  arg5 : Addr ws
  ret : Addr ws
  err : Addr ws
deriving DecidableEq, Repr

/-- The cast `(int)`, also where an `int` is the key of a map. -/
def int (x : Addr ws) : BitVec 32 := x.setWidth 32

/-- The value `-1` of an `int`. -/
def minusOne : BitVec 32 := -1

/-- An `int` added to an address is sign-extended. -/
def ofInt (ws : WordSize) (x : BitVec 32) : Addr ws := x.signExtend ws.bits

/-- An `int` that is not negative is added as it is. -/
theorem ofInt_toNat {x : BitVec 32} (h : x.toNat < 2 ^ 31) : (ofInt ws x).toNat = x.toNat := by
  have hmsb : x.msb = false := by
    rw [BitVec.msb_eq_false_iff_two_mul_lt]
    omega
  rw [ofInt, BitVec.signExtend_eq_setWidth_of_msb_false hmsb, BitVec.toNat_setWidth]
  refine Nat.mod_eq_of_lt (x.isLt.trans_le ?_)
  cases ws with
  | w32 => exact Nat.le_refl _
  | w64 => exact Nat.pow_le_pow_right (by omega) (by decide)

/-- The IP address and the port of a `struct sockaddr_in`, the port in host
    order. -/
structure SockaddrIn where
  sAddr : BitVec 32
  sinPort : BitVec 16
deriving DecidableEq, Repr

/-- The memory of the application, as the observers read it.  `none` is an
    address that cannot be read: the tool is killed. -/
structure AppMemory (ws : WordSize) where
  cString : Addr ws → Option String
  word : Addr ws → Option (Addr ws)
  sockaddrIn : Addr ws → Option SockaddrIn

/-- A memory with nothing in it that can be read. -/
def AppMemory.unreadable (ws : WordSize) : AppMemory ws where
  cString := fun _ => none
  word := fun _ => none
  sockaddrIn := fun _ => none

/-- A call with three arguments. -/
def SyscallArguments.ofArgs (arg0 arg1 arg2 ret : Addr ws) : SyscallArguments ws where
  num := 0
  arg0 := arg0
  arg1 := arg1
  arg2 := arg2
  arg3 := 0
  arg4 := 0
  arg5 := 0
  ret := ret
  err := 0

/-- The generators `set_framework_options` makes.  `TaintGenerator(1, num)`
    counts modulo `num`, which is checked to lie between 1 and
    `NUMBER_OF_TAINT_MARKS`; `ConstantTaintGenerator(5)` is made when that
    number is still 4096. -/
inductive TaintGenerator (N : Nat) where
  | counting (current max : Nat) (pos : 0 < max) (le : max ≤ N)
  | constant (seed : Nat) (lt : seed < N)

/-- `nextTaintMark`.  An overflow of `_current` is undefined. -/
def nextTaintMark : TaintGenerator N → Option (Nat × TaintGenerator N)
  | .counting current max pos le =>
      if current + 1 < 2 ^ 31 then some ((current + 1) % max, .counting (current + 1) max pos le)
      else none
  | .constant seed lt => some (seed, .constant seed lt)

theorem nextTaintMark_lt {gen gen' : TaintGenerator N} {tag : Nat}
    (h : nextTaintMark gen = some (tag, gen')) : tag < N := by
  cases gen with
  | counting current max pos le =>
      rw [nextTaintMark] at h
      by_cases hlt : current + 1 < 2 ^ 31
      · rw [if_pos hlt] at h
        cases h
        exact Nat.lt_of_lt_of_le (Nat.mod_lt _ pos) le
      · rw [if_neg hlt] at h
        exact nomatch h
  | constant seed lt =>
      cases h
      exact lt

/-- The map type of `memTaintMap`. -/
abbrev TaintMap (ws : WordSize) := Std.ExtTreeMap (Addr ws) (Bitset ws.bits)

/-- The globals the observers change.  `count` is the `static` of the
    per-offset callback, `tagMap` the names of `AssignTagToByteRange`. -/
structure Globals (ws : WordSize) (N : Nat) where
  state : TaintState ws N
  taintGen : Option (TaintGenerator N)
  tagMap : String → Option Nat
  openFiles : BitVec 32 → Option String
  count : Int

/-- The globals before the first call. -/
def Globals.init (ws : WordSize) (N : Nat) : Globals ws N where
  state := TaintState.init ws N
  taintGen := none
  tagMap := fun _ => none
  openFiles := fun _ => none
  count := -1

/-- `memTaintMap`. -/
abbrev Globals.memTaintMap (g : Globals ws N) : TaintMap ws := g.state.memTaintMap

/-- Replace `memTaintMap`. -/
def Globals.setMem (g : Globals ws N) (m : TaintMap ws) : Globals ws N :=
  { g with state := { g.state with memTaintMap := m } }

@[simp] theorem Globals.setMem_memTaintMap (g : Globals ws N) (m : TaintMap ws) :
    (g.setMem m).memTaintMap = m := rfl

/-! ## The two loops -/

/-- One turn of `for (addr …) { iter = find(addr); if (found) erase(iter); }`. -/
def eraseByte (m : TaintMap ws) (addr : Addr ws) : TaintMap ws :=
  if addr ∈ m then m.erase addr else m

/-- The erasing loop over `[start, start + size)`. -/
def eraseRange (start size : Addr ws) (m : TaintMap ws) : TaintMap ws :=
  (addrRange start size).foldl eraseByte m

theorem eraseByte_getElem? (m : TaintMap ws) (addr a : Addr ws) :
    (eraseByte m addr)[a]? = if a = addr then none else m[a]? := by
  rw [eraseByte]
  by_cases hm : addr ∈ m
  · rw [if_pos hm, Std.ExtTreeMap.getElem?_erase]
    by_cases ha : a = addr
    · simp [ha]
    · simp [ha, Ne.symm ha]
  · rw [if_neg hm]
    by_cases ha : a = addr
    · rw [if_pos ha, ha]
      exact Std.ExtTreeMap.getElem?_eq_none hm
    · rw [if_neg ha]

theorem foldl_eraseByte_getElem? (as : List (Addr ws)) (m : TaintMap ws) (a : Addr ws) :
    (as.foldl eraseByte m)[a]? = if a ∈ as then none else m[a]? := by
  induction as generalizing m with
  | nil => simp
  | cons b rest ih =>
      rw [List.foldl_cons, ih, eraseByte_getElem?]
      by_cases hrest : a ∈ rest
      · simp [hrest]
      · by_cases hb : a = b
        · simp [hb]
        · simp [hrest, hb]

theorem eraseRange_getElem? (start size : Addr ws) (m : TaintMap ws) (a : Addr ws) :
    (eraseRange start size m)[a]? = if a ∈ addrRange start size then none else m[a]? :=
  foldl_eraseByte_getElem? _ m a

/-- One turn of `for (addr …) memTaintMap[addr] = bitset_copy(s);`. -/
def copyByte (s : Bitset ws.bits) (m : TaintMap ws) (addr : Addr ws) : TaintMap ws :=
  m.insert addr (bitsetCopy s)

/-- The copying loop over `[start, start + size)`. -/
def copyRange (s : Bitset ws.bits) (start size : Addr ws) (m : TaintMap ws) : TaintMap ws :=
  (addrRange start size).foldl (copyByte s) m

theorem foldl_copyByte_getElem? {s : Bitset ws.bits} (hs : Sized N s) (as : List (Addr ws))
    (m : TaintMap ws) (a : Addr ws) :
    (as.foldl (copyByte s) m)[a]? = if a ∈ as then some s else m[a]? := by
  induction as generalizing m with
  | nil => simp
  | cons b rest ih =>
      rw [List.foldl_cons, ih, copyByte, copy_eq_self hs, Std.ExtTreeMap.getElem?_insert]
      by_cases hrest : a ∈ rest
      · simp [hrest]
      · by_cases hb : a = b
        · simp [hb]
        · simp [hrest, hb, Ne.symm hb]

theorem copyRange_getElem? {s : Bitset ws.bits} (hs : Sized N s) (start size : Addr ws)
    (m : TaintMap ws) (a : Addr ws) :
    (copyRange s start size m)[a]? = if a ∈ addrRange start size then some s else m[a]? :=
  foldl_copyByte_getElem? hs _ m a

/-- Two maps with the same lookups are equal. -/
theorem taintMap_ext {m m' : TaintMap ws} (h : ∀ a : Addr ws, m[a]? = m'[a]?) : m = m' :=
  Std.ExtTreeMap.ext_getElem? h

/-- Copying to a range changes nothing exactly if its bytes have the copy. -/
theorem copyRange_eq_self_iff {s : Bitset ws.bits} (hs : Sized N s) (start size : Addr ws)
    (m : TaintMap ws) :
    copyRange s start size m = m ↔ ∀ a ∈ addrRange start size, m[a]? = some s := by
  constructor
  · intro h a ha
    have hget := copyRange_getElem? hs start size m a
    rwa [h, if_pos ha] at hget
  · intro h
    refine taintMap_ext fun a => ?_
    rw [copyRange_getElem? hs]
    by_cases ha : a ∈ addrRange start size
    · rw [if_pos ha, h a ha]
    · rw [if_neg ha]

end DytanSyscallState
