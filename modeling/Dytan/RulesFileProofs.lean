import Mathlib.Data.List.Induction
import Mathlib.Data.List.Nodup
import Dytan.ConfigFilesProofs

/-! # Rules written and read back

    A rules file has a line for each rule: image, function, overwrite flag, and
    two lists of argument numbers, each ended by `-1`.  Where the text fits the
    buffer, the parser takes it apart into exactly these words and stores the
    rules one after the other (`runs_words`).

    Storing a rule makes its image a new map, so the rules of an image before it
    are lost. -/

namespace DytanRulesFile

open DytanRegister DytanConfigFiles Decimal Runs Tokens

variable {ws : WordSize}

/-- Words with commas in between. -/
def line (words : List Name) : List Byte := [44].intercalate words

/-- Lines of words; the last one may be ended too. -/
def IsText (lines : List (List Name)) (text : List Byte) : Prop :=
  text = [10].intercalate (lines.map line) ∨ text = [10].intercalate (lines.map line) ++ [10]

/-- A word of a text. -/
def IsWord (word : Name) : Prop := word ≠ [] ∧ ∀ b ∈ word, isDelim b = false

/-- The check of a given word. -/
theorem isWord_of_all {word : Name} (hne : word ≠ []) (hall : word.all (fun b => !isDelim b) = true) :
    IsWord word :=
  ⟨hne, fun b hb => (Bool.not_eq_true' _).mp (List.all_eq_true.mp hall b hb)⟩

variable {lines : List (List Name)} {text : List Byte}

/-- **The words of a text** are its pieces. -/
theorem pieces_text (hwords : ∀ words ∈ lines, ∀ w ∈ words, IsWord w) (htext : IsText lines text) :
    pieces isDelim text = lines.flatten := by
  have hlines : pieces isDelim ([10].intercalate (lines.map line)) = lines.flatten := by
    rw [pieces_intercalate (by decide), List.flatMap_map, List.flatMap_def]
    refine congrArg List.flatten ((List.map_congr_left fun words hmem => ?_).trans (List.map_id lines))
    rw [line, pieces_intercalate (by decide), flatMap_pieces_words (hwords words hmem)]
    rfl
  rcases htext with rfl | rfl
  · exact hlines
  · rw [pieces_append_cons (by decide), hlines, pieces_nil, List.append_nil]

theorem mem_intercalate {d b : Byte} {xs : List (List Byte)} (h : b ∈ [d].intercalate xs) :
    b = d ∨ ∃ x ∈ xs, b ∈ x := by
  induction xs with
  | nil => exact nomatch h
  | cons x rest ih =>
      cases rest with
      | nil =>
          rw [List.intercalate_singleton] at h
          exact Or.inr ⟨x, List.mem_cons_self, h⟩
      | cons y rest =>
          rw [List.intercalate_cons_cons, List.append_assoc, List.mem_append, List.mem_append,
            List.mem_singleton] at h
          rcases h with h | h | h
          · exact Or.inr ⟨x, List.mem_cons_self, h⟩
          · exact Or.inl h
          · obtain h | ⟨z, hz, hb⟩ := ih h
            · exact Or.inl h
            · exact Or.inr ⟨z, List.mem_cons_of_mem _ hz, hb⟩

/-- A zero of a text is in a word. -/
theorem zero_mem_text (htext : IsText lines text) (h : 0 ∈ text) :
    ∃ words ∈ lines, ∃ w ∈ words, (0 : Byte) ∈ w := by
  have hjoined : (0 : Byte) ∈ [10].intercalate (lines.map line) := by
    rcases htext with rfl | rfl
    · exact h
    · rcases List.mem_append.mp h with h | h
      · exact h
      · exact absurd (List.mem_singleton.mp h) (by decide)
  obtain h | ⟨l, hl, hmem⟩ := mem_intercalate hjoined
  · exact absurd h (by decide)
  · obtain ⟨words, hwords, rfl⟩ := List.mem_map.mp hl
    obtain h | ⟨w, hw, hzero⟩ := mem_intercalate hmem
    · exact absurd h (by decide)
    · exact ⟨words, hwords, w, hw, hzero⟩

theorem isWord_decimal (n : Nat) : IsWord (decimal n) := by
  refine ⟨decimal_ne_nil n, fun b hb => ?_⟩
  have hdigit := isDigit_of_mem_decimal hb
  rw [isDelim, Bool.or_eq_false_iff, decide_eq_false_iff_not, decide_eq_false_iff_not]
  constructor
  · rintro rfl
    exact absurd hdigit (by decide)
  · rintro rfl
    exact absurd hdigit (by decide)

theorem zero_notMem_decimal (n : Nat) : 0 ∉ decimal n := fun h =>
  absurd (isDigit_of_mem_decimal h) (by decide)

/-- A rule that a line can spell. -/
structure Rule where
  image : Name
  api : Name
  overwrite : Bool
  srcArgs : List Nat
  destArgs : List Nat
  image_word : IsWord image
  api_word : IsWord api
  srcArgs_lt : ∀ n ∈ srcArgs, n < 2 ^ 31
  destArgs_lt : ∀ n ∈ destArgs, n < 2 ^ 31

/-- What is stored for it. -/
def Rule.stored (r : Rule) : Rules where
  overwrite := some r.overwrite
  srcArgs := r.srcArgs.map Nat.cast
  destArgs := r.destArgs.map Nat.cast

/-- `0` or `1`. -/
def flagWord (b : Bool) : Name := if b then [49] else [48]

theorem flagWord_eq (b : Bool) : flagWord b = decimal b.toNat := by
  cases b <;> decide

/-- `-1`. -/
def minusOne : Name := [45, 49]

/-- Argument numbers and their end. -/
def argsWords (ns : List Nat) : List Name := ns.map decimal ++ [minusOne]

/-- The words of its line. -/
def Rule.words (r : Rule) : List Name :=
  [r.image, r.api, flagWord r.overwrite] ++ (argsWords r.srcArgs ++ argsWords r.destArgs)

theorem mem_argsWords {ns : List Nat} {w : Name} (h : w ∈ argsWords ns) : IsWord w ∧ 0 ∉ w := by
  rcases List.mem_append.mp h with h | h
  · obtain ⟨n, -, rfl⟩ := List.mem_map.mp h
    exact ⟨isWord_decimal n, zero_notMem_decimal n⟩
  · rw [List.mem_singleton.mp h]
    exact ⟨isWord_of_all (List.cons_ne_nil _ _) rfl, by decide⟩

theorem mem_words {r : Rule} {w : Name} (h : w ∈ r.words) :
    w = r.image ∨ w = r.api ∨ IsWord w ∧ 0 ∉ w := by
  rcases List.mem_append.mp h with h | h
  · simp only [List.mem_cons, List.not_mem_nil, or_false] at h
    rcases h with h | h | rfl
    · exact Or.inl h
    · exact Or.inr (Or.inl h)
    · refine Or.inr (Or.inr ?_)
      rw [flagWord_eq]
      exact ⟨isWord_decimal _, zero_notMem_decimal _⟩
  · refine Or.inr (Or.inr ?_)
    rcases List.mem_append.mp h with h | h
    · exact mem_argsWords h
    · exact mem_argsWords h

theorem isWord_of_mem_words (r : Rule) : ∀ w ∈ r.words, IsWord w := by
  intro w hw
  rcases mem_words hw with rfl | rfl | ⟨hword, -⟩
  · exact r.image_word
  · exact r.api_word
  · exact hword

/-! ## Reading them -/

theorem bits_ge (ws : WordSize) : 32 ≤ ws.bits := by
  cases ws <;> decide

/-- A list of argument numbers, in a phase that collects them. -/
theorem runs_argsWords (ws : WordSize) (collect finish : List Int → RulesParser)
    (hstep : ∀ args token, rulesToken ws token (collect args)
      = some (if atoi ws.bits token = -1 then finish args
        else collect (args ++ [atoi ws.bits token])))
    {ns : List Nat} (hns : ∀ n ∈ ns, n < 2 ^ 31) (args : List Int) :
    runs (rulesToken ws) (argsWords ns) (collect args)
      = some (finish (args ++ ns.map Nat.cast)) := by
  induction ns generalizing args with
  | nil =>
      have hend : atoi ws.bits minusOne = -1 := atoi_minusOne (bits_ge ws)
      rw [argsWords, List.map_nil, List.nil_append, runs_cons, hstep, if_pos hend, List.map_nil,
        List.append_nil]
      rfl
  | cons n rest ih =>
      obtain ⟨hn, hrest⟩ := List.forall_mem_cons.mp hns
      have hvalue : ¬ (n : Int) = -1 := by omega
      have hwords : argsWords (n :: rest) = decimal n :: argsWords rest := rfl
      have htail := ih hrest (args ++ [(n : Int)])
      rw [List.append_assoc] at htail
      rw [hwords, runs_cons, hstep, atoi_decimal (bits_ge ws) hn, if_neg hvalue, Option.bind_some,
        htail]
      rfl

theorem atoi_flagWord (b : Bool) : decide (atoi ws.bits (flagWord b) ≠ 0) = b := by
  have hsmall : b.toNat < 2 ^ 31 := by cases b <;> decide
  rw [flagWord_eq, atoi_decimal (bits_ge ws) hsmall]
  cases b <;> rfl

/-- **A rule is read**: its image gets a new map with this rule. -/
theorem runs_words (r : Rule) {p : RulesParser} (hp : p.flags = Phase.imgName.flags) :
    runs (rulesToken ws) r.words p
      = some (inRule .imgName p.rulesImageMap r.image r.api r.stored) := by
  have hnew : runs (rulesToken ws) [r.image, r.api, flagWord r.overwrite] p
      = some (inRule .sourceArg p.rulesImageMap r.image r.api ⟨some r.overwrite, [], []⟩) := by
    rw [runs_cons, rulesToken_imgName hp, Option.bind_some, runs_cons, rulesToken_newRule rfl rfl,
      Option.bind_some, runs_cons, rulesToken_inOverwrite, atoi_flagWord]
    rfl
  have hsrc := runs_argsWords ws
    (fun args => inRule .sourceArg p.rulesImageMap r.image r.api ⟨some r.overwrite, args, []⟩)
    (fun args => inRule .destArg p.rulesImageMap r.image r.api ⟨some r.overwrite, args, []⟩)
    (fun _ _ => rulesToken_inSourceArg) r.srcArgs_lt []
  have hdest := runs_argsWords ws
    (fun args => inRule .destArg p.rulesImageMap r.image r.api
      ⟨some r.overwrite, r.srcArgs.map Nat.cast, args⟩)
    (fun args => inRule .imgName p.rulesImageMap r.image r.api
      ⟨some r.overwrite, r.srcArgs.map Nat.cast, args⟩)
    (fun _ _ => rulesToken_inDestArg) r.destArgs_lt []
  rw [Rule.words, runs_append, hnew, Option.bind_some, runs_append, hsrc, Option.bind_some]
  exact hdest

/-- One rule stored. -/
def storeRule (m : RulesImageMap) (r : Rule) : RulesImageMap :=
  m.insert r.image ((∅ : Std.ExtTreeMap Name Rules).insert r.api r.stored)

/-- The rules of a file. -/
theorem runs_rules (rules : List Rule) {p : RulesParser} (hp : p.flags = Phase.imgName.flags) :
    (runs (rulesToken ws) (rules.map Rule.words).flatten p).map RulesParser.rulesImageMap
      = some (rules.foldl storeRule p.rulesImageMap) := by
  induction rules generalizing p with
  | nil => rfl
  | cons r rest ih =>
      rw [List.map_cons, List.flatten_cons, runs_append, runs_words r hp]
      exact ih rfl

/-- Every rule is found under its image and function. -/
def Stored (rules : List Rule) (m : RulesImageMap) : Prop :=
  ∀ r ∈ rules, ∃ apis, m[r.image]? = some apis ∧ apis[r.api]? = some r.stored

/-- The rule stored last. -/
theorem stored_append_iff {rules : List Rule} {r : Rule} {m : RulesImageMap}
    (hnew : ∀ r' ∈ rules, (r'.image, r'.api) ≠ (r.image, r.api)) :
    Stored (rules ++ [r]) (storeRule m r)
      ↔ Stored rules m ∧ ∀ r' ∈ rules, r'.image ≠ r.image := by
  have hself : (storeRule m r)[r.image]? = some ((∅ : Std.ExtTreeMap Name Rules).insert r.api r.stored) :=
    Std.ExtTreeMap.getElem?_insert_self
  have hother : ∀ image, image ≠ r.image → (storeRule m r)[image]? = m[image]? := by
    intro image hne
    rw [storeRule, Std.ExtTreeMap.getElem?_insert,
      if_neg fun heq => hne (Std.LawfulEqCmp.eq_of_compare heq).symm]
  constructor
  · intro h
    have hne : ∀ r' ∈ rules, r'.image ≠ r.image := by
      intro r' hr' himage
      obtain ⟨apis, hapis, hget⟩ := h r' (List.mem_append_left _ hr')
      rw [himage, hself] at hapis
      cases hapis
      -- the new map of the image has the function of `r` only
      rw [Std.ExtTreeMap.getElem?_insert] at hget
      split at hget
      · next heq =>
          exact hnew r' hr' (by rw [himage, Std.LawfulEqCmp.eq_of_compare heq])
      · rw [Std.ExtTreeMap.getElem?_empty] at hget
        exact nomatch hget
    refine ⟨fun r' hr' => ?_, hne⟩
    rw [← hother r'.image (hne r' hr')]
    exact h r' (List.mem_append_left _ hr')
  · rintro ⟨h, hne⟩ r' hr'
    rcases List.mem_append.mp hr' with hr' | hr'
    · rw [hother r'.image (hne r' hr')]
      exact h r' hr'
    · rw [List.mem_singleton.mp hr']
      exact ⟨_, hself, Std.ExtTreeMap.getElem?_insert_self⟩

theorem nodup_append_singleton {β : Type*} (l : List β) (b : β) :
    (l ++ [b]).Nodup ↔ b ∉ l ∧ l.Nodup := by
  rw [← List.concat_eq_append]
  exact List.nodup_concat l b

/-- **Nothing is lost exactly if no image comes twice.** -/
theorem stored_foldl_iff {rules : List Rule} (hpairs : (rules.map fun r => (r.image, r.api)).Nodup)
    (m : RulesImageMap) :
    Stored rules (rules.foldl storeRule m) ↔ (rules.map Rule.image).Nodup := by
  induction rules using List.reverseRecOn with
  | nil => exact iff_of_true (fun _ hr => nomatch hr) List.nodup_nil
  | append_singleton rules r ih =>
      rw [List.map_append, List.map_singleton, nodup_append_singleton] at hpairs
      obtain ⟨hnew, hpairs⟩ := hpairs
      have hlast : ∀ r' ∈ rules, (r'.image, r'.api) ≠ (r.image, r.api) := fun r' hr' heq =>
        hnew (List.mem_map.mpr ⟨r', hr', heq⟩)
      rw [List.foldl_append, List.foldl_cons, List.foldl_nil, stored_append_iff hlast, ih hpairs,
        List.map_append, List.map_singleton, nodup_append_singleton, List.mem_map]
      push Not
      exact and_comm

/-! ## The whole file -/

/-- The text of a rules file. -/
def IsRulesText (rules : List Rule) (text : List Byte) : Prop := IsText (rules.map Rule.words) text

variable {rules : List Rule}

theorem pieces_rulesText (htext : IsRulesText rules text) :
    pieces isDelim text = (rules.map Rule.words).flatten := by
  refine pieces_text (fun words hwords w hw => ?_) htext
  obtain ⟨r, -, rfl⟩ := List.mem_map.mp hwords
  exact isWord_of_mem_words r w hw

/-- A file of names without zeros: the rules are stored one after the other. -/
theorem parseRulesFile_eq (hnames : ∀ r ∈ rules, 0 ∉ r.image ∧ 0 ∉ r.api)
    (htext : IsRulesText rules text) (hlen : text.length < 256) (m : RulesImageMap) :
    parseRulesFile ws (some text) m = some (rules.foldl storeRule m) := by
  have hzero : 0 ∉ text := by
    intro hmem
    obtain ⟨words, hwords, w, hw, hzero⟩ := zero_mem_text htext hmem
    obtain ⟨r, hr, rfl⟩ := List.mem_map.mp hwords
    rcases mem_words hw with rfl | rfl | ⟨-, hnot⟩
    · exact (hnames r hr).1 hzero
    · exact (hnames r hr).2 hzero
    · exact hnot hzero
  rw [parseRulesFile, parseRulesBuffer, readBuffer_of_lt hlen,
    whileToken_terminated isDelim_zero hzero, pieces_rulesText htext]
  exact runs_rules rules rfl

/-- The parser returns, and has no name with a zero in it. -/
theorem parseRulesFile_keys (ws : WordSize) (hlen : text.length < 256) :
    ∃ m, parseRulesFile ws (some text) ∅ = some m ∧ Keys (0 ∉ ·) m := by
  obtain ⟨text', hzero, -, hbuffer⟩ := readBuffer_terminated (Or.inl hlen : Terminated text)
  obtain ⟨rest, hrest⟩ := hbuffer 256 (Or.inl rfl)
  have hempty : Keys (0 ∉ ·) (∅ : RulesImageMap) := fun img apis hget => by
    rw [Std.ExtTreeMap.getElem?_empty] at hget
    exact nomatch hget
  have hstart : Reading (0 ∉ ·) (.initial ∅) := .atImage rfl hempty
  have htokens : ∀ piece ∈ pieces isDelim text', 0 ∉ piece := fun piece hp hmem =>
    hzero (((pieces_spec isDelim text').2 piece hp).2 0 hmem)
  obtain ⟨p', hp', h'⟩ := hstart.runs ws htokens
  refine ⟨p'.rulesImageMap, ?_, h'.keys⟩
  rw [parseRulesFile, parseRulesBuffer, hrest, whileToken_terminated isDelim_zero hzero, hp']
  rfl

/-- **The rules that come back.** -/
theorem parseRulesFile_stored_iff (hpairs : (rules.map fun r => (r.image, r.api)).Nodup)
    (htext : IsRulesText rules text) (hlen : text.length < 256) :
    ∃ m, parseRulesFile ws (some text) ∅ = some m
      ∧ (Stored rules m
        ↔ (rules.map Rule.image).Nodup ∧ ∀ r ∈ rules, 0 ∉ r.image ∧ 0 ∉ r.api) := by
  obtain ⟨m, hm, hkeys⟩ := parseRulesFile_keys ws hlen
  refine ⟨m, hm, ?_⟩
  have hfold : (∀ r ∈ rules, 0 ∉ r.image ∧ 0 ∉ r.api) → m = rules.foldl storeRule ∅ := by
    intro hnames
    rw [parseRulesFile_eq hnames htext hlen] at hm
    exact (Option.some.inj hm).symm
  constructor
  · intro hstored
    have hnames : ∀ r ∈ rules, 0 ∉ r.image ∧ 0 ∉ r.api := by
      intro r hr
      obtain ⟨apis, hapis, hget⟩ := hstored r hr
      obtain ⟨himage, hapi⟩ := hkeys r.image apis hapis
      exact ⟨himage, hapi r.api r.stored hget⟩
    rw [hfold hnames, stored_foldl_iff hpairs] at hstored
    exact ⟨hstored, hnames⟩
  · rintro ⟨himages, hnames⟩
    rw [hfold hnames, stored_foldl_iff hpairs]
    exact himages

/-- `a,f,1,0,-1,-1`. -/
def ruleF : Rule where
  image := [97]
  api := [102]
  overwrite := true
  srcArgs := [0]
  destArgs := []
  image_word := isWord_of_all (List.cons_ne_nil _ _) rfl
  api_word := isWord_of_all (List.cons_ne_nil _ _) rfl
  srcArgs_lt := by decide
  destArgs_lt := by decide

/-- `a,g,0,-1,1,-1`. -/
def ruleG : Rule where
  image := [97]
  api := [103]
  overwrite := false
  srcArgs := []
  destArgs := [1]
  image_word := isWord_of_all (List.cons_ne_nil _ _) rfl
  api_word := isWord_of_all (List.cons_ne_nil _ _) rfl
  srcArgs_lt := by decide
  destArgs_lt := by decide

/-- A file of two lines for one image. -/
def twoLines : List Byte := [10].intercalate ([ruleF, ruleG].map fun r => line r.words)

theorem twoLines_text : IsRulesText [ruleF, ruleG] twoLines := Or.inl rfl

theorem parseRulesFile_stored_iff_twoLines :
    ∃ m, parseRulesFile .w64 (some twoLines) ∅ = some m
      ∧ (Stored [ruleF, ruleG] m
        ↔ ([ruleF, ruleG].map Rule.image).Nodup
          ∧ ∀ r ∈ [ruleF, ruleG], 0 ∉ r.image ∧ 0 ∉ r.api) :=
  parseRulesFile_stored_iff (by decide) twoLines_text (by decide)

/-- The second rule of an image takes the place of the first one. -/
theorem twoLines_lost : ∃ m apis, parseRulesFile .w64 (some twoLines) ∅ = some m
    ∧ m[ruleF.image]? = some apis ∧ apis[ruleF.api]? = none := by
  refine ⟨[ruleF, ruleG].foldl storeRule ∅, (∅ : Std.ExtTreeMap Name Rules).insert ruleG.api
    ruleG.stored, parseRulesFile_eq (by decide) twoLines_text (by decide) ∅,
    Std.ExtTreeMap.getElem?_insert_self, ?_⟩
  rw [Std.ExtTreeMap.getElem?_insert, if_neg (by decide), Std.ExtTreeMap.getElem?_empty]

end DytanRulesFile
