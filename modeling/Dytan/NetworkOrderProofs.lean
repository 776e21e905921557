import Dytan.SearchTreeProofs
import Dytan.NetworkMonitorProofs

/-! # The order of network addresses

    `addressObservers` is a map ordered by `NetworkAddress_cmp`, which asks
    whether the IP address is less or the port is less.  Two addresses are
    inverted if one has the smaller IP address and the other the smaller port:
    each is then less than the other, and a map may miss or repeat an entry.

    On a set of addresses no two of which are inverted the comparator is a
    strict weak order whose equivalence is equality of IP address and port, and
    the map, whatever the shape of its tree, has one entry for each. -/

namespace DytanNetworkOrder

open DytanNetworkMonitor SearchTree

variable {K : Type} {S : Set NetworkAddress}

/-- `addressObservers`. -/
abbrev AddressObservers (K : Type) := SearchTree.Tree (NetworkAddress × List K)

/-- `observeAddress`: the entries after `addressObservers[addr].push_back(…)`. -/
def observed (addr : NetworkAddress) (callback : K) (t : AddressObservers K) :
    Entries K :=
  altered networkAddressCmp addr (fun o => o.getD [] ++ [callback]) t

/-- The trees `addressObservers` may be after a sequence of `observeAddress`
    calls; the map balances its tree as it likes. -/
inductive Registered : List (NetworkAddress × K) → AddressObservers K → Prop where
  | nothing : Registered [] .leaf
  | observe {regs : List (NetworkAddress × K)} {addr : NetworkAddress} {callback : K}
      {t t' : AddressObservers K} (before : Registered regs t)
      (after : t'.toList = observed addr callback t) : Registered (regs ++ [(addr, callback)]) t'

/-- The observers registered for the IP address and the port of `a`. -/
def observersOf (a : NetworkAddress) (regs : List (NetworkAddress × K)) : List K :=
  (regs.filter fun r => r.1.peer = a.peer).map Prod.snd

/-- The laws of the order on the addresses in `S`. -/
structure OrderLaws (S : Set NetworkAddress) : Prop where
  irreflexive : ∀ a ∈ S, networkAddressCmp a a = false
  asymmetric : ∀ a ∈ S, ∀ b ∈ S, networkAddressCmp a b = true → networkAddressCmp b a = false
  transitive : ∀ a ∈ S, ∀ b ∈ S, ∀ c ∈ S,
    networkAddressCmp a b = true → networkAddressCmp b c = true → networkAddressCmp a c = true
  incomparable : ∀ a ∈ S, ∀ b ∈ S, Equivalent a b ↔ a.ip = b.ip ∧ a.port = b.port

/-- The map after `regs` has one entry for each IP address and port, and `find`
    returns the observers of exactly the address it is asked for. -/
structure KeepsObservers (S : Set NetworkAddress) (regs : List (NetworkAddress × K))
    (t : AddressObservers K) : Prop where
  distinct : (t.toList.map fun e => e.1.peer).Nodup
  entries : ∀ p, p ∈ (t.toList.map fun e => e.1.peer) ↔ ∃ r ∈ regs, r.1.peer = p
  exact_find : ∀ a ∈ S,
    (find networkAddressCmp a t = none ∧ observersOf a regs = [])
      ∨ ∃ key, find networkAddressCmp a t = some (key, observersOf a regs) ∧ key.peer = a.peer

/-- Each of the two addresses is less than the other. -/
def Inverted (a b : NetworkAddress) : Prop := a.ip.ult b.ip = true ∧ b.port.slt a.port = true

instance (a b : NetworkAddress) : Decidable (Inverted a b) :=
  inferInstanceAs (Decidable (_ ∧ _))

/-! ## The comparator on numbers -/

theorem networkAddressCmp_iff (a b : NetworkAddress) :
    networkAddressCmp a b = true
      ↔ a.ip.toNat < b.ip.toNat ∨ a.port.toInt < b.port.toInt := by
  rw [networkAddressCmp, Bool.or_eq_true, BitVec.ult_iff_toNat_lt, BitVec.slt_iff_toInt_lt]

theorem networkAddressCmp_eq_false_iff (a b : NetworkAddress) :
    networkAddressCmp a b = false
      ↔ b.ip.toNat ≤ a.ip.toNat ∧ b.port.toInt ≤ a.port.toInt := by
  rw [← Bool.not_eq_true, networkAddressCmp_iff]
  omega

theorem inverted_iff (a b : NetworkAddress) :
    Inverted a b ↔ a.ip.toNat < b.ip.toNat ∧ b.port.toInt < a.port.toInt := by
  rw [Inverted, BitVec.ult_iff_toNat_lt, BitVec.slt_iff_toInt_lt]

theorem peer_eq_iff (a b : NetworkAddress) :
    a.peer = b.peer ↔ a.ip.toNat = b.ip.toNat ∧ a.port.toInt = b.port.toInt := by
  rw [NetworkAddress.peer, NetworkAddress.peer, Prod.mk.injEq, BitVec.toNat_inj, BitVec.toInt_inj]

/-- Equivalence is equality of IP address and port, for any two addresses. -/
theorem equivalent_iff_peer (a b : NetworkAddress) : Equivalent a b ↔ a.peer = b.peer := by
  rw [Equivalent, networkAddressCmp_eq_false_iff, networkAddressCmp_eq_false_iff, peer_eq_iff]
  omega

/-- Without inverted addresses the laws hold. -/
theorem orderLaws_of_noInverted (h : ∀ a ∈ S, ∀ b ∈ S, ¬ Inverted a b) : OrderLaws S where
  irreflexive := by
    intro a _
    rw [networkAddressCmp_eq_false_iff]
    omega
  asymmetric := by
    intro a ha b hb hab
    have h1 := h a ha b hb
    have h2 := h b hb a ha
    rw [inverted_iff] at h1 h2
    rw [networkAddressCmp_iff] at hab
    rw [networkAddressCmp_eq_false_iff]
    omega
  transitive := by
    intro a ha b hb c hc hab hbc
    have h1 := h a ha b hb
    have h2 := h b hb a ha
    have h3 := h b hb c hc
    have h4 := h c hc b hb
    rw [inverted_iff] at h1 h2 h3 h4
    rw [networkAddressCmp_iff] at hab hbc ⊢
    omega
  incomparable := by
    intro a _ b _
    rw [equivalent_iff_peer, NetworkAddress.peer, NetworkAddress.peer, Prod.mk.injEq]

/-- Inverted addresses break asymmetry. -/
theorem Inverted.both_less {a b : NetworkAddress} (h : Inverted a b) :
    networkAddressCmp a b = true ∧ networkAddressCmp b a = true := by
  rw [inverted_iff] at h
  rw [networkAddressCmp_iff, networkAddressCmp_iff]
  omega

theorem OrderLaws.strictWeakOn (h : OrderLaws S) : StrictWeakOn networkAddressCmp S where
  irrefl := h.irreflexive
  trans := h.transitive
  between := by
    intro a ha b hb c hc hac
    by_contra hno
    rw [not_or, Bool.not_eq_true, Bool.not_eq_true] at hno
    have h1 := h.asymmetric a ha c hc hac
    rw [networkAddressCmp_eq_false_iff] at h1 hno
    rw [networkAddressCmp_eq_false_iff] at hno
    rw [networkAddressCmp_iff] at hac
    omega

/-- A smaller address has another IP address or port. -/
theorem peer_ne_of_less {a b : NetworkAddress} (hab : networkAddressCmp a b = true) :
    a.peer ≠ b.peer := by
  intro hp
  rw [networkAddressCmp_iff] at hab
  rw [peer_eq_iff] at hp
  omega

/-! ## The map after any registrations -/

theorem observersOf_concat (a b : NetworkAddress) (callback : K)
    (regs : List (NetworkAddress × K)) :
    observersOf a (regs ++ [(b, callback)])
      = observersOf a regs ++ if b.peer = a.peer then [callback] else [] := by
  rw [observersOf, List.filter_append, List.map_append]
  by_cases h : b.peer = a.peer
  · simp [observersOf, h]
  · simp [observersOf, h]

/-- What the entries are after `regs`. -/
structure Filed (S : Set NetworkAddress) (regs : List (NetworkAddress × K))
    (xs : Entries K) : Prop where
  sorted : SortedIn networkAddressCmp S xs
  observers : ∀ e ∈ xs, e.2 = observersOf e.1 regs
  complete : ∀ r ∈ regs, ∃ e ∈ xs, e.1.peer = r.1.peer
  registered : ∀ e ∈ xs, ∃ r ∈ regs, r.1.peer = e.1.peer

/-- An address without an entry was not registered. -/
theorem Filed.observersOf_eq_nil {regs : List (NetworkAddress × K)} {xs : Entries K}
    (h : Filed S regs xs) {a : NetworkAddress} (ha : ∀ e ∈ xs, e.1.peer ≠ a.peer) :
    observersOf a regs = [] := by
  rw [observersOf, List.map_eq_nil_iff, List.filter_eq_nil_iff]
  intro r hr hp
  obtain ⟨e, he, hpeer⟩ := h.complete r hr
  exact ha e he (hpeer.trans (by simpa using hp))

/-- Entries other than the one of `addr` keep their observers. -/
theorem Filed.observers_other {regs : List (NetworkAddress × K)} {xs : Entries K}
    (h : Filed S regs xs) {e : NetworkAddress × List K} (he : e ∈ xs) {addr : NetworkAddress}
    (hne : addr.peer ≠ e.1.peer) (callback : K) :
    e.2 = observersOf e.1 (regs ++ [(addr, callback)]) := by
  rw [observersOf_concat, if_neg hne, List.append_nil]
  exact h.observers e he

/-- An address whose search fails has no entry. -/
theorem Filed.peer_ne_of_find (hlaws : OrderLaws S) {regs : List (NetworkAddress × K)}
    {t : AddressObservers K} (h : Filed S regs t.toList) {a : NetworkAddress} (ha : a ∈ S)
    (hfind : find networkAddressCmp a t = none) : ∀ e ∈ t.toList, e.1.peer ≠ a.peer := by
  intro e he hp
  have hequiv : Equivalent e.1 a := (equivalent_iff_peer e.1 a).mpr hp
  have hsome := (find_eq_some_iff hlaws.strictWeakOn ha h.sorted e).mpr ⟨he, hequiv⟩
  rw [hfind] at hsome
  exact nomatch hsome

/-- **One `observeAddress`** on a map that is in order. -/
theorem Filed.observed (hlaws : OrderLaws S) {regs : List (NetworkAddress × K)}
    {t : AddressObservers K} (h : Filed S regs t.toList) {addr : NetworkAddress} (haddr : addr ∈ S)
    (callback : K) :
    Filed S (regs ++ [(addr, callback)]) (observed addr callback t) := by
  have hless := hlaws.strictWeakOn
  obtain ⟨new, hnew, hmem⟩ := mem_altered hless haddr h.sorted (fun o => o.getD [] ++ [callback])
  have hpeer : new.1.peer = addr.peer ∧ new.2 = observersOf new.1 regs ++ [callback] := by
    rcases hnew with ⟨hfind, rfl⟩ | ⟨e, hfind, rfl⟩
    · have hnil := h.observersOf_eq_nil (h.peer_ne_of_find hlaws haddr hfind)
      exact ⟨rfl, by rw [hnil]; rfl⟩
    · obtain ⟨he, hequiv⟩ := find_equivalent hfind
      refine ⟨(equivalent_iff_peer e.1 addr).mp hequiv, ?_⟩
      show e.2 ++ [callback] = observersOf e.1 regs ++ [callback]
      rw [← h.observers e he]
  have hother : ∀ x : NetworkAddress × List K,
      networkAddressCmp x.1 addr = true ∨ networkAddressCmp addr x.1 = true →
        addr.peer ≠ x.1.peer := by
    rintro x (hx | hx)
    · exact (peer_ne_of_less hx).symm
    · exact peer_ne_of_less hx
  refine ⟨altered_sorted hless haddr h.sorted _, fun x hx => ?_, fun r hr => ?_, fun x hx => ?_⟩
  · rcases (hmem x).mp hx with rfl | ⟨hxt, hcmp⟩
    · rw [observersOf_concat, if_pos hpeer.1.symm]
      exact hpeer.2
    · exact h.observers_other hxt (hother x hcmp) callback
  · by_cases hrp : r.1.peer = addr.peer
    · exact ⟨new, (hmem new).mpr (.inl rfl), hpeer.1.trans hrp.symm⟩
    · have hrr : r ∈ regs := by
        rcases List.mem_append.mp hr with hr | hr
        · exact hr
        · rw [List.mem_singleton.mp hr] at hrp
          exact absurd rfl hrp
      obtain ⟨e, he, hep⟩ := h.complete r hrr
      refine ⟨e, (hmem e).mpr (.inr ⟨he, ?_⟩), hep⟩
      -- an entry of another peer is comparable to the address
      by_contra hno
      rw [not_or, Bool.not_eq_true, Bool.not_eq_true] at hno
      exact hrp (hep.symm.trans ((equivalent_iff_peer e.1 addr).mp hno))
  · rcases (hmem x).mp hx with rfl | ⟨hxt, -⟩
    · exact ⟨_, List.mem_append_right _ (List.mem_singleton.mpr rfl), hpeer.1.symm⟩
    · obtain ⟨r, hr, hrp⟩ := h.registered x hxt
      exact ⟨r, List.mem_append_left _ hr, hrp⟩

/-- **Any sequence of registrations**, whatever shapes the tree takes. -/
theorem Registered.filed (hlaws : OrderLaws S) {regs : List (NetworkAddress × K)}
    {t : AddressObservers K} (ht : Registered regs t) (hregs : ∀ r ∈ regs, r.1 ∈ S) :
    Filed S regs t.toList := by
  induction ht with
  | nothing =>
      exact ⟨⟨nofun, List.Pairwise.nil⟩, nofun, nofun, nofun⟩
  | @observe regs addr callback t t' before after ih =>
      have hbefore := ih fun r hr => hregs r (List.mem_append_left _ hr)
      have haddr : addr ∈ S :=
        hregs (addr, callback) (List.mem_append_right _ (List.mem_singleton.mpr rfl))
      rw [after]
      exact hbefore.observed hlaws haddr callback

/-- What is filed in order keeps the observers. -/
theorem Filed.keepsObservers (hlaws : OrderLaws S) {regs : List (NetworkAddress × K)}
    {t : AddressObservers K} (h : Filed S regs t.toList) : KeepsObservers S regs t where
  distinct := by
    rw [List.Nodup, List.pairwise_map]
    exact h.sorted.increasing.imp fun hab => peer_ne_of_less hab
  entries := by
    intro p
    rw [List.mem_map]
    constructor
    · rintro ⟨e, he, rfl⟩
      exact h.registered e he
    · rintro ⟨r, hr, rfl⟩
      obtain ⟨e, he, hep⟩ := h.complete r hr
      exact ⟨e, he, hep⟩
  exact_find := by
    intro a ha
    cases hfind : find networkAddressCmp a t with
    | none => exact .inl ⟨rfl, h.observersOf_eq_nil (h.peer_ne_of_find hlaws ha hfind)⟩
    | some e =>
        obtain ⟨he, hequiv⟩ := find_equivalent hfind
        have hpeer := (equivalent_iff_peer e.1 a).mp hequiv
        refine .inr ⟨e.1, ?_, hpeer⟩
        rw [show observersOf a regs = observersOf e.1 regs by rw [observersOf, observersOf, hpeer],
          ← h.observers e he]

/-- **The order and the map, exactly**: on the addresses in `S` the comparator
    is a strict weak order with equality of IP address and port as its
    equivalence, and after every sequence of registrations the map keeps one
    entry per address and finds exactly its observers, if and only if no two
    of the addresses are inverted. -/
theorem orderLaws_iff_noInverted (K : Type) (S : Set NetworkAddress) :
    (OrderLaws S ∧ ∀ (regs : List (NetworkAddress × K)) (t : AddressObservers K),
        (∀ r ∈ regs, r.1 ∈ S) → Registered regs t → KeepsObservers S regs t)
      ↔ ∀ a ∈ S, ∀ b ∈ S, ¬ Inverted a b := by
  constructor
  · rintro ⟨hlaws, -⟩ a ha b hb hinv
    obtain ⟨hab, hba⟩ := hinv.both_less
    rw [hlaws.asymmetric a ha b hb hab] at hba
    exact nomatch hba
  · intro hno
    have hlaws := orderLaws_of_noInverted hno
    exact ⟨hlaws, fun regs t hregs ht => (ht.filed hlaws hregs).keepsObservers hlaws⟩

/-- Three addresses, the first two inverted. -/
def address1 : NetworkAddress := ⟨1, 2, ""⟩
def address2 : NetworkAddress := ⟨2, 1, ""⟩
def address3 : NetworkAddress := ⟨3, 3, ""⟩

/-- The balanced tree of the three, in the order they are observed. -/
def balanced : AddressObservers Nat :=
  .node (.node .leaf (address1, [0]) .leaf) (address2, [1]) (.node .leaf (address3, [2]) .leaf)

theorem registered_balanced : Registered [(address1, 0), (address2, 1), (address3, 2)] balanced := by
  have h1 : Registered ([] ++ [(address1, 0)]) (.node .leaf (address1, [0]) .leaf) :=
    .observe .nothing rfl
  have h2 : Registered (([] ++ [(address1, 0)]) ++ [(address2, 1)])
      (.node .leaf (address1, [0]) (.node .leaf (address2, [1]) .leaf)) :=
    .observe h1 (by decide)
  exact .observe h2 (by decide)

/-- The comparator orders the first two addresses both ways, and the map does
    not find the observer of the first. -/
theorem address_missed :
    (networkAddressCmp address1 address2 = true ∧ networkAddressCmp address2 address1 = true)
      ∧ Registered [(address1, 0), (address2, 1), (address3, 2)] balanced
      ∧ find networkAddressCmp address1 balanced = none
      ∧ ¬ OrderLaws Set.univ := by
  refine ⟨⟨by decide, by decide⟩, registered_balanced, by decide, fun h => ?_⟩
  exact absurd (h.asymmetric address1 trivial address2 trivial (by decide)) (by decide)

end DytanNetworkOrder
