import Mathlib.Tactic.Common
import Dytan.RunsProofs

/-! # Tokens — reading a buffer with `strtok`

    A buffer is a list of characters; reading behind its end is undefined
    (`none`).  `strtok` skips delimiters and takes what stands before the next
    one or before the terminator, and a loop calls it until there is no token.

    In a terminated buffer the loop is a run over the pieces of its text
    (`whileToken_terminated`), whatever stands behind the terminator; in one
    without a terminator the loop runs off the end. -/

namespace Tokens

open Runs

variable {α σ : Type*}

/-- The pieces of a text between delimiters, the empty ones left out. -/
def pieces (isDelim : α → Bool) (text : List α) : List (List α) :=
  (text.splitOnP isDelim).filter fun piece => !piece.isEmpty

variable {isDelim : α → Bool} {d : α} {word text xs ys : List α}

@[simp] theorem pieces_nil : pieces isDelim [] = [] := rfl

theorem pieces_append_cons (hd : isDelim d = true) (xs ys : List α) :
    pieces isDelim (xs ++ d :: ys) = pieces isDelim xs ++ pieces isDelim ys := by
  rw [pieces, List.splitOnP_append_cons xs ys hd, List.filter_append]
  rfl

theorem pieces_cons_delim (hd : isDelim d = true) (xs : List α) :
    pieces isDelim (d :: xs) = pieces isDelim xs := pieces_append_cons hd [] xs

/-- A word is one piece. -/
theorem pieces_word (hne : word ≠ []) (hword : ∀ a ∈ word, isDelim a = false) :
    pieces isDelim word = [word] := by
  rw [pieces, List.splitOnP_eq_singleton hword, List.filter_cons_of_pos]
  · rfl
  · rw [Bool.not_eq_true', List.isEmpty_eq_false_iff]
    exact hne

/-- Texts with delimiters in between have the pieces of the texts. -/
theorem pieces_intercalate (hd : isDelim d = true) (texts : List (List α)) :
    pieces isDelim ([d].intercalate texts) = texts.flatMap (pieces isDelim) := by
  induction texts with
  | nil => rfl
  | cons text rest ih =>
      cases rest with
      | nil => simp
      | cons text' rest =>
          rw [List.intercalate_cons_of_ne_nil (List.cons_ne_nil _ _), List.append_assoc,
            List.singleton_append, pieces_append_cons hd, ih]
          rfl

theorem flatMap_pieces_words {words : List (List α)}
    (hwords : ∀ w ∈ words, w ≠ [] ∧ ∀ a ∈ w, isDelim a = false) :
    words.flatMap (pieces isDelim) = words := by
  induction words with
  | nil => rfl
  | cons word rest ih =>
      obtain ⟨hword, hrest⟩ := List.forall_mem_cons.mp hwords
      rw [List.flatMap_cons, pieces_word hword.1 hword.2, ih hrest]
      rfl

/-- The first piece, by its end. -/
theorem exists_split (isDelim : α → Bool) (text : List α) :
    ∃ word left, (∀ a ∈ word, isDelim a = false)
      ∧ ((text = word ∧ left = []) ∨ ∃ d, isDelim d = true ∧ text = word ++ d :: left) := by
  induction text with
  | nil => exact ⟨[], [], nofun, Or.inl ⟨rfl, rfl⟩⟩
  | cons a rest ih =>
      by_cases ha : isDelim a = true
      · exact ⟨[], rest, nofun, Or.inr ⟨a, ha, rfl⟩⟩
      · rw [Bool.not_eq_true] at ha
        obtain ⟨word, left, hword, ⟨rfl, rfl⟩ | ⟨d, hd, rfl⟩⟩ := ih
        · exact ⟨a :: rest, [], List.forall_mem_cons.mpr ⟨ha, hword⟩, Or.inl ⟨rfl, rfl⟩⟩
        · exact ⟨a :: word, left, List.forall_mem_cons.mpr ⟨ha, hword⟩, Or.inr ⟨d, hd, rfl⟩⟩

/-- A piece is a non-empty part of its text, and the next one is not adjacent
    to it. -/
theorem pieces_spec (isDelim : α → Bool) (text : List α) :
    2 * (pieces isDelim text).length ≤ text.length + 1
      ∧ ∀ piece ∈ pieces isDelim text, piece ≠ [] ∧ ∀ a ∈ piece, a ∈ text := by
  induction hn : text.length using Nat.strongRecOn generalizing text with
  | ind n ih =>
      obtain ⟨word, left, hword, hsplit⟩ := exists_split isDelim text
      have hfirst : 2 * (pieces isDelim word).length ≤ word.length + 1
          ∧ ∀ piece ∈ pieces isDelim word, piece ≠ [] ∧ ∀ a ∈ piece, a ∈ word := by
        by_cases hne : word = []
        · rw [hne, pieces_nil]
          exact ⟨Nat.zero_le _, nofun⟩
        · have hpos := List.length_pos_iff.mpr hne
          rw [pieces_word hne hword, List.length_singleton]
          refine ⟨by omega, fun piece hp => ?_⟩
          rw [List.mem_singleton.mp hp]
          exact ⟨hne, fun _ ha => ha⟩
      rcases hsplit with ⟨rfl, -⟩ | ⟨d, hd, rfl⟩
      · exact ⟨hn ▸ hfirst.1, hfirst.2⟩
      · rw [List.length_append, List.length_cons] at hn
        obtain ⟨hlen, hmem⟩ := ih left.length (by omega) left rfl
        rw [pieces_append_cons hd, List.length_append]
        refine ⟨by have := hfirst.1; omega, List.forall_mem_append.mpr
          ⟨fun piece hp => ?_, fun piece hp => ?_⟩⟩
        · exact ⟨(hfirst.2 piece hp).1, fun a ha => List.mem_append_left _ ((hfirst.2 piece hp).2 a ha)⟩
        · exact ⟨(hmem piece hp).1, fun a ha =>
            List.mem_append_right _ (List.mem_cons_of_mem _ ((hmem piece hp).2 a ha))⟩

/-! ## `strtok` -/

/-- `strspn`: over the delimiters. -/
def skip (isDelim : α → Bool) : List α → Option (List α)
  | [] => none
  | a :: rest => if isDelim a then skip isDelim rest else some (a :: rest)

variable {nul : α} {s left : List α}

theorem skip_eq_some (h : skip isDelim s = some left) :
    left.length ≤ s.length ∧ left ≠ [] ∧ ∀ a ∈ left, a ∈ s := by
  induction s with
  | nil => exact nomatch h
  | cons a rest ih =>
      rw [skip] at h
      split at h
      · obtain ⟨hlen, hne, hmem⟩ := ih h
        exact ⟨Nat.le_succ_of_le hlen, hne, fun b hb => List.mem_cons_of_mem _ (hmem b hb)⟩
      · cases h
        exact ⟨Nat.le_refl _, List.cons_ne_nil _ _, fun _ hb => hb⟩

theorem skip_terminated (hnul : isDelim nul = false) (text rest : List α) :
    ∃ left, skip isDelim (text ++ nul :: rest) = some (left ++ nul :: rest)
      ∧ pieces isDelim left = pieces isDelim text ∧ (∀ a ∈ left, a ∈ text)
      ∧ ∀ a ∈ left.head?, isDelim a = false := by
  induction text with
  | nil =>
      refine ⟨[], ?_, rfl, nofun, nofun⟩
      rw [List.nil_append, skip, hnul]
      rfl
  | cons a text ih =>
      by_cases ha : isDelim a = true
      · obtain ⟨left, hskip, hpieces, hmem, hhead⟩ := ih
        refine ⟨left, ?_, ?_, fun b hb => List.mem_cons_of_mem _ (hmem b hb), hhead⟩
        · rw [List.cons_append, skip, if_pos ha, hskip]
        · rw [pieces_cons_delim ha, hpieces]
      · refine ⟨a :: text, ?_, rfl, fun _ hb => hb, ?_⟩
        · rw [List.cons_append, skip, if_neg ha]
        · rintro b ⟨⟩
          exact Bool.not_eq_true _ ▸ ha

section Strtok

variable [DecidableEq α]

/-- `strcspn`: the characters before the next delimiter or the terminator, and
    where the next call starts. -/
def scan (isDelim : α → Bool) (nul : α) : List α → Option (List α × List α)
  | [] => none
  | a :: rest =>
      if a = nul then some ([], a :: rest)
      else if isDelim a then some ([], rest)
      else (scan isDelim nul rest).map fun (word, left) => (a :: word, left)

/-- `strtok` on what is left of the buffer: the token, if there is one, and
    what is left then. -/
def strtok (isDelim : α → Bool) (nul : α) (s : List α) : Option (Option (List α × List α)) :=
  match skip isDelim s with
  | none => none
  | some s => if s.head? = some nul then some none else (scan isDelim nul s).map some

theorem scan_eq_some (h : scan isDelim nul s = some (word, left)) :
    left.length ≤ s.length ∧ (s.head? ≠ some nul → left.length < s.length)
      ∧ ∀ a ∈ left, a ∈ s := by
  induction s generalizing word with
  | nil => exact nomatch h
  | cons a rest ih =>
      rw [scan] at h
      split at h
      · next ha =>
          cases h
          exact ⟨Nat.le_refl _, fun hne => absurd (congrArg some ha) hne, fun _ hb => hb⟩
      · split at h
        · cases h
          exact ⟨Nat.le_succ _, fun _ => Nat.lt_succ_self _, fun _ hb => List.mem_cons_of_mem _ hb⟩
        · obtain ⟨⟨w, l⟩, hscan, hpair⟩ := Option.map_eq_some_iff.mp h
          cases hpair
          obtain ⟨hlen, -, hmem⟩ := ih hscan
          exact ⟨Nat.le_succ_of_le hlen, fun _ => Nat.lt_succ_of_le hlen,
            fun b hb => List.mem_cons_of_mem _ (hmem b hb)⟩

/-- A token leaves less. -/
theorem strtok_eq_token (h : strtok isDelim nul s = some (some (word, left))) :
    left.length < s.length ∧ ∀ a ∈ left, a ∈ s := by
  rw [strtok] at h
  split at h
  · exact nomatch h
  · next s' hskip =>
      obtain ⟨hlen, -, hmem⟩ := skip_eq_some hskip
      split at h
      · exact nomatch h
      · next hne =>
          obtain ⟨p, hscan, hp⟩ := Option.map_eq_some_iff.mp h
          cases hp
          obtain ⟨-, hlt, hmem'⟩ := scan_eq_some hscan
          exact ⟨Nat.lt_of_lt_of_le (hlt hne) hlen, fun a ha => hmem a (hmem' a ha)⟩

theorem strtok_eq_end (h : strtok isDelim nul s = some none) : nul ∈ s := by
  rw [strtok] at h
  split at h
  · exact nomatch h
  · next s' hskip =>
      obtain ⟨-, -, hmem⟩ := skip_eq_some hskip
      split at h
      · next hhead => exact hmem nul (List.mem_of_mem_head? hhead)
      · exact nomatch Option.map_eq_some_iff.mp h

theorem scan_terminated (isDelim : α → Bool) (rest : List α) (htext : nul ∉ text) :
    ∃ word left, scan isDelim nul (text ++ nul :: rest) = some (word, left ++ nul :: rest)
      ∧ (∀ a ∈ word, isDelim a = false)
      ∧ ((text = word ∧ left = []) ∨ ∃ d, isDelim d = true ∧ text = word ++ d :: left) := by
  induction text with
  | nil =>
      refine ⟨[], [], ?_, nofun, Or.inl ⟨rfl, rfl⟩⟩
      rw [List.nil_append, scan, if_pos rfl]
  | cons a text ih =>
      obtain ⟨ha, htext⟩ := not_or.mp (List.mem_cons.not.mp htext)
      rw [List.cons_append, scan, if_neg (Ne.symm ha)]
      by_cases hd : isDelim a = true
      · exact ⟨[], text, if_pos hd, nofun, Or.inr ⟨a, hd, rfl⟩⟩
      · obtain ⟨word, left, hscan, hword, hsplit⟩ := ih htext
        rw [if_neg hd, hscan]
        refine ⟨a :: word, left, rfl, List.forall_mem_cons.mpr ⟨Bool.not_eq_true _ ▸ hd, hword⟩, ?_⟩
        rcases hsplit with ⟨rfl, rfl⟩ | ⟨d, hd, rfl⟩
        · exact Or.inl ⟨rfl, rfl⟩
        · exact Or.inr ⟨d, hd, rfl⟩

/-- **`strtok` in a terminated buffer** takes the first piece of the text. -/
theorem strtok_terminated (hnul : isDelim nul = false) (htext : nul ∉ text) (rest : List α) :
    (strtok isDelim nul (text ++ nul :: rest) = some none ∧ pieces isDelim text = [])
      ∨ ∃ word left, strtok isDelim nul (text ++ nul :: rest)
            = some (some (word, left ++ nul :: rest))
          ∧ pieces isDelim text = word :: pieces isDelim left ∧ nul ∉ left := by
  obtain ⟨s, hskip, hpieces, hmem, hhead⟩ := skip_terminated hnul text rest
  have hs : nul ∉ s := fun h => htext (hmem nul h)
  rw [strtok, hskip, ← hpieces]
  cases s with
  | nil => exact Or.inl ⟨if_pos rfl, rfl⟩
  | cons a s =>
      have ha : a ≠ nul := fun h => hs (h ▸ List.mem_cons_self)
      obtain ⟨word, left, hscan, hword, hsplit⟩ := scan_terminated isDelim rest hs
      refine Or.inr ⟨word, left, ?_, ?_⟩
      · rw [List.cons_append] at hscan ⊢
        show (if some a = some nul then _ else _) = _
        rw [if_neg fun h => ha (Option.some.inj h), hscan]
        rfl
      · have hne : word ≠ [] := by
          rintro rfl
          rcases hsplit with ⟨h, -⟩ | ⟨d, hd, h⟩
          · exact nomatch h
          · obtain ⟨rfl, -⟩ := List.cons.inj h
            exact Bool.false_ne_true ((hhead a rfl).symm.trans hd)
        rcases hsplit with ⟨h, rfl⟩ | ⟨d, hd, h⟩
        · rw [h, pieces_word hne hword]
          exact ⟨rfl, List.not_mem_nil⟩
        · rw [h, pieces_append_cons hd, pieces_word hne hword]
          exact ⟨rfl, fun hl => hs (h ▸ List.mem_append_right _ (List.mem_cons_of_mem _ hl))⟩

/-- `while (token)`, from a call on `s` on. -/
def whileToken (isDelim : α → Bool) (nul : α) (body : List α → σ → Option σ) (s : List α)
    (st : σ) : Option σ :=
  match _h : strtok isDelim nul s with
  | none => none
  | some none => some st
  | some (some (word, left)) => (body word st).bind (whileToken isDelim nul body left)
termination_by s.length
decreasing_by exact (strtok_eq_token _h).1

variable {body : List α → σ → Option σ}

/-- **The loop over a terminated buffer.** -/
theorem whileToken_terminated (hnul : isDelim nul = false) (htext : nul ∉ text) (rest : List α)
    (st : σ) : whileToken isDelim nul body (text ++ nul :: rest) st
      = runs body (pieces isDelim text) st := by
  induction hn : text.length using Nat.strongRecOn generalizing text st with
  | ind n ih =>
      rw [whileToken]
      rcases strtok_terminated hnul htext rest with ⟨htok, hpieces⟩ | ⟨word, left, htok, hpieces, hleft⟩
      · rw [hpieces]
        split
        · next h => exact nomatch htok.symm.trans h
        · rfl
        · next h => exact nomatch htok.symm.trans h
      · have hlt := (strtok_eq_token htok).1
        rw [List.length_append, List.length_append] at hlt
        rw [hpieces, runs_cons]
        split
        · next h => exact nomatch htok.symm.trans h
        · next h => exact nomatch htok.symm.trans h
        · next h =>
            cases htok.symm.trans h
            exact congrArg _ (funext fun st => ih left.length (by omega) hleft st rfl)

/-- **The loop over a buffer without a terminator.** -/
theorem whileToken_unterminated (hs : nul ∉ s) (st : σ) :
    whileToken isDelim nul body s st = none := by
  induction hn : s.length using Nat.strongRecOn generalizing s st with
  | ind n ih =>
      rw [whileToken]
      split
      · rfl
      · next h => exact absurd (strtok_eq_end h) hs
      · next word left h =>
          obtain ⟨hlt, hmem⟩ := strtok_eq_token h
          cases body word st with
          | none => rfl
          | some st' => exact ih left.length (hn ▸ hlt) (fun hl => hs (hmem nul hl)) st' rfl

end Strtok

end Tokens
