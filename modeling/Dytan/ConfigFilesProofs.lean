import Dytan.TokensProofs
import Dytan.DecimalProofs
import Dytan.RegisterProofs

/-! # The configuration files — `parseRulesFile` and `parseDatFiles`

    Both read at most 256 bytes into a zeroed buffer of 256 and take it apart at
    commas and line ends.  The buffer has a terminator unless the file fills it
    (`Terminated`).

    The rules are read by a machine of five flags, of which exactly one is set
    (`Phase`); the ranges by a counter modulo 3.  A read behind the buffer, a
    write behind the arrays, and a rule that is not there give `none`. -/

namespace DytanConfigFiles

open DytanRegister Decimal Runs Tokens

variable {ws : WordSize}

/-- `char buf[size]` after `memset` and `fread`. -/
def readBuffer (size : Nat) (file : List Byte) : List Byte :=
  file.take size ++ (List.replicate size 0).drop (file.take size).length

/-- The characters of `",\n"`. -/
def isDelim (b : Byte) : Bool := b = 44 || b = 10

/-- The file does not fill the buffer, or has a zero of its own in it. -/
def Terminated (file : List Byte) : Prop := file.length < 256 ∨ 0 ∈ file.take 256

instance (file : List Byte) : Decidable (Terminated file) := inferInstanceAs (Decidable (_ ∨ _))

/-- The text of a buffer, and what follows its terminator. -/
theorem exists_text (s : List Byte) :
    ∃ text, 0 ∉ text ∧ text.length ≤ s.length ∧ (s = text ∨ ∃ rest, s = text ++ 0 :: rest) := by
  by_cases h : 0 ∈ s
  · obtain ⟨text, rest, rfl, htext⟩ := List.eq_append_cons_of_mem h
    exact ⟨text, htext, by simp, Or.inr ⟨rest, rfl⟩⟩
  · exact ⟨s, h, Nat.le_refl _, Or.inl rfl⟩

theorem readBuffer_of_lt {size : Nat} {file : List Byte} (h : file.length < size) :
    readBuffer size file = file ++ 0 :: List.replicate (size - file.length - 1) 0 := by
  have hsize : size - file.length = size - file.length - 1 + 1 := by omega
  rw [readBuffer, List.take_of_length_le (Nat.le_of_lt h), List.drop_replicate, hsize,
    List.replicate_succ]
  rfl

/-- **A terminated file** has the same text in the buffer as in any buffer that
    holds it with a terminator. -/
theorem readBuffer_terminated {file : List Byte} (h : Terminated file) :
    ∃ text, 0 ∉ text ∧ text.length < 256
      ∧ ∀ size, size = 256 ∨ file.length < size → ∃ rest, readBuffer size file = text ++ 0 :: rest := by
  by_cases hlt : file.length < 256
  · obtain ⟨text, htext, hlen, hsplit⟩ := exists_text file
    refine ⟨text, htext, Nat.lt_of_le_of_lt hlen hlt, fun size hsize => ?_⟩
    rw [readBuffer_of_lt (by omega)]
    rcases hsplit with rfl | ⟨rest, rfl⟩
    · exact ⟨_, rfl⟩
    · exact ⟨_, List.append_assoc ..⟩
  · have hmem : 0 ∈ file.take 256 := h.resolve_left hlt
    obtain ⟨text, rest, hsplit, htext⟩ := List.eq_append_cons_of_mem hmem
    have hfile : file = text ++ 0 :: (rest ++ file.drop 256) := by
      calc file = file.take 256 ++ file.drop 256 := (List.take_append_drop 256 file).symm
        _ = text ++ 0 :: (rest ++ file.drop 256) := by rw [hsplit, List.append_assoc]; rfl
    have hlen := congrArg List.length hsplit
    rw [List.length_take, List.length_append, List.length_cons] at hlen
    refine ⟨text, htext, by omega, fun size hsize => ?_⟩
    rcases hsize with rfl | hsize
    · rw [readBuffer, hsplit]
      exact ⟨_, List.append_assoc ..⟩
    · rw [readBuffer_of_lt hsize, hfile]
      exact ⟨_, List.append_assoc ..⟩

/-- Any other file leaves no zero in the buffer. -/
theorem readBuffer_unterminated {file : List Byte} (h : ¬ Terminated file) :
    0 ∉ readBuffer 256 file := by
  obtain ⟨hlen, hmem⟩ := not_or.mp h
  have hnil : (List.replicate 256 (0 : Byte)).drop (file.take 256).length = [] := by
    rw [List.drop_replicate, List.length_take, Nat.min_eq_left (by omega)]
    rfl
  rw [readBuffer, hnil, List.append_nil]
  exact hmem

/-! ## The rules -/

/-- An image or function name. -/
abbrev Name := List Byte

/-- `rules`.  A new one has its `overwrite` uninitialised. -/
structure Rules where
  overwrite : Option Bool
  srcArgs : List Int
  destArgs : List Int
deriving DecidableEq, Repr

/-- `new rules`. -/
def Rules.new : Rules := ⟨none, [], []⟩

/-- `map<string, rulesMap *>`. -/
abbrev RulesImageMap := Std.ExtTreeMap Name (Std.ExtTreeMap Name Rules)

/-- The five flags. -/
structure RulesFlags where
  imgName : Bool
  apiName : Bool
  overwrite : Bool
  sourceArg : Bool
  destArg : Bool
deriving DecidableEq, Repr

/-- The variables of `parseRulesFile`, and `rulesImageMap`. -/
structure RulesParser where
  flags : RulesFlags
  imgName : Name
  apiName : Name
  rulesImageMap : RulesImageMap

/-- `(*(rulesImageMap[imgName]))[APIname]`, written through. -/
def RulesParser.update (p : RulesParser) (f : Rules → Rules) : Option RulesParser := do
  let apis ← p.rulesImageMap[p.imgName]?
  let rules ← apis[p.apiName]?
  some { p with rulesImageMap := p.rulesImageMap.insert p.imgName (apis.insert p.apiName (f rules)) }

/-- The body of the loop. -/
def rulesToken (ws : WordSize) (token : Name) (p : RulesParser) : Option RulesParser :=
  if p.flags.imgName then
    some { p with
      imgName := token
      rulesImageMap := p.rulesImageMap.insert token ∅
      flags := { p.flags with imgName := false, apiName := true } }
  else if p.flags.apiName then do
    let apis ← p.rulesImageMap[p.imgName]?
    some { p with
      apiName := token
      rulesImageMap := p.rulesImageMap.insert p.imgName (apis.insert token Rules.new)
      flags := { p.flags with apiName := false, overwrite := true } }
  else if p.flags.overwrite then do
    let read := atoi ws.bits token
    let p' ← p.update fun r => { r with overwrite := some (decide (read ≠ 0)) }
    some { p' with flags := { p.flags with overwrite := false, sourceArg := true } }
  else if p.flags.sourceArg then
    let read := atoi ws.bits token
    if read = -1 then
      some { p with flags := { p.flags with sourceArg := false, destArg := true } }
    else p.update fun r => { r with srcArgs := r.srcArgs ++ [read] }
  else if p.flags.destArg then
    let read := atoi ws.bits token
    if read = -1 then
      some { p with flags := { p.flags with destArg := false, imgName := true } }
    else p.update fun r => { r with destArgs := r.destArgs ++ [read] }
  else some p

/-- The variables before the first token. -/
def RulesParser.initial (m : RulesImageMap) : RulesParser where
  flags := ⟨true, false, false, false, false⟩
  imgName := []
  apiName := []
  rulesImageMap := m

/-- `parseRulesFile` with a buffer of `size` bytes; a file that cannot be opened
    is `none`. -/
def parseRulesBuffer (ws : WordSize) (size : Nat) (file : Option (List Byte)) (m : RulesImageMap) :
    Option RulesImageMap :=
  match file with
  | none => some m
  | some file =>
      (whileToken isDelim 0 (rulesToken ws) (readBuffer size file) (.initial m)).map
        RulesParser.rulesImageMap

/-- `parseRulesFile`. -/
def parseRulesFile (ws : WordSize) : Option (List Byte) → RulesImageMap → Option RulesImageMap :=
  parseRulesBuffer ws 256

/-- What the next token is. -/
inductive Phase where
  | imgName | apiName | overwrite | sourceArg | destArg
deriving DecidableEq, Repr

/-- The one flag that is set. -/
def Phase.flags : Phase → RulesFlags
  | .imgName => ⟨true, false, false, false, false⟩
  | .apiName => ⟨false, true, false, false, false⟩
  | .overwrite => ⟨false, false, true, false, false⟩
  | .sourceArg => ⟨false, false, false, true, false⟩
  | .destArg => ⟨false, false, false, false, true⟩

variable {p p' : RulesParser} {token : Name}

theorem rulesToken_imgName (h : p.flags = Phase.imgName.flags) :
    rulesToken ws token p = some { p with
      imgName := token
      rulesImageMap := p.rulesImageMap.insert token ∅
      flags := Phase.apiName.flags } := by
  rw [rulesToken, h]
  rfl

theorem rulesToken_apiName (h : p.flags = Phase.apiName.flags) :
    rulesToken ws token p = p.rulesImageMap[p.imgName]?.map fun apis => { p with
      apiName := token
      rulesImageMap := p.rulesImageMap.insert p.imgName (apis.insert token Rules.new)
      flags := Phase.overwrite.flags } := by
  rw [rulesToken, h]
  cases p.rulesImageMap[p.imgName]? <;> rfl

theorem rulesToken_overwrite (h : p.flags = Phase.overwrite.flags) :
    rulesToken ws token p
      = (p.update fun r => { r with overwrite := some (decide (atoi ws.bits token ≠ 0)) }).map
        fun p' => { p' with flags := Phase.sourceArg.flags } := by
  rw [rulesToken, h]
  show Option.bind (p.update _) _ = _
  cases p.update fun r => { r with overwrite := some (decide (atoi ws.bits token ≠ 0)) } with
  | none => rfl
  | some p' => rfl

theorem rulesToken_sourceArg (h : p.flags = Phase.sourceArg.flags) : rulesToken ws token p
    = if atoi ws.bits token = -1 then some { p with flags := Phase.destArg.flags }
      else p.update fun r => { r with srcArgs := r.srcArgs ++ [atoi ws.bits token] } := by
  rw [rulesToken, h]
  rfl

theorem rulesToken_destArg (h : p.flags = Phase.destArg.flags) : rulesToken ws token p
    = if atoi ws.bits token = -1 then some { p with flags := Phase.imgName.flags }
      else p.update fun r => { r with destArgs := r.destArgs ++ [atoi ws.bits token] } := by
  rw [rulesToken, h]
  rfl

/-! ### The rule being read -/

theorem insert_insert {α β : Type*} [Ord α] [Std.TransOrd α] [Std.LawfulEqOrd α]
    (m : Std.ExtTreeMap α β) (k : α) (x y : β) : (m.insert k x).insert k y = m.insert k y := by
  refine Std.ExtTreeMap.ext_getElem? fun j => ?_
  rw [Std.ExtTreeMap.getElem?_insert, Std.ExtTreeMap.getElem?_insert, Std.ExtTreeMap.getElem?_insert]
  split <;> rfl

/-- The parser inside a rule: the map of its image is a new one, and has this
    rule only. -/
def inRule (phase : Phase) (m : RulesImageMap) (img api : Name) (r : Rules) : RulesParser where
  flags := phase.flags
  imgName := img
  apiName := api
  rulesImageMap := m.insert img ((∅ : Std.ExtTreeMap Name Rules).insert api r)

variable {m : RulesImageMap} {img api : Name} {r : Rules}

/-- Writing through the two maps. -/
theorem update_eq {apis : Std.ExtTreeMap Name Rules} (himg : p.rulesImageMap[p.imgName]? = some apis)
    (hapi : apis[p.apiName]? = some r) (f : Rules → Rules) :
    p.update f = some { p with
      rulesImageMap := p.rulesImageMap.insert p.imgName (apis.insert p.apiName (f r)) } := by
  rw [RulesParser.update, himg]
  show Option.bind apis[p.apiName]? _ = _
  rw [hapi]
  rfl

theorem update_inRule (phase : Phase) (f : Rules → Rules) :
    (inRule phase m img api r).update f = some (inRule phase m img api (f r)) := by
  rw [update_eq Std.ExtTreeMap.getElem?_insert_self Std.ExtTreeMap.getElem?_insert_self f]
  refine congrArg some ?_
  rw [inRule, inRule, RulesParser.mk.injEq, insert_insert, insert_insert]
  exact ⟨rfl, rfl, rfl, rfl⟩

theorem rulesToken_newRule (h : p.flags = Phase.apiName.flags)
    (hm : p.rulesImageMap = m.insert p.imgName ∅) :
    rulesToken ws token p = some (inRule .overwrite m p.imgName token Rules.new) := by
  rw [rulesToken_apiName h, hm, Std.ExtTreeMap.getElem?_insert_self, Option.map_some, insert_insert]
  rfl

theorem rulesToken_inOverwrite : rulesToken ws token (inRule .overwrite m img api r)
    = some (inRule .sourceArg m img api
        { r with overwrite := some (decide (atoi ws.bits token ≠ 0)) }) := by
  rw [rulesToken_overwrite rfl, update_inRule]
  rfl

theorem rulesToken_inSourceArg : rulesToken ws token (inRule .sourceArg m img api r)
    = some (if atoi ws.bits token = -1 then inRule .destArg m img api r
        else inRule .sourceArg m img api { r with srcArgs := r.srcArgs ++ [atoi ws.bits token] }) := by
  rw [rulesToken_sourceArg rfl, update_inRule]
  split <;> rfl

theorem rulesToken_inDestArg : rulesToken ws token (inRule .destArg m img api r)
    = some (if atoi ws.bits token = -1 then inRule .imgName m img api r
        else inRule .destArg m img api { r with destArgs := r.destArgs ++ [atoi ws.bits token] }) := by
  rw [rulesToken_destArg rfl, update_inRule]
  split <;> rfl

/-- Every image and function name is a `P`. -/
def Keys (P : Name → Prop) (m : RulesImageMap) : Prop :=
  ∀ img apis, m[img]? = some apis → P img ∧ ∀ (api : Name) r, apis[api]? = some r → P api

theorem Keys.insert {P : Name → Prop} {apis : Std.ExtTreeMap Name Rules} (h : Keys P m)
    (himg : P img) (hapis : ∀ (api : Name) r, apis[api]? = some r → P api) :
    Keys P (m.insert img apis) := by
  intro img' apis' hget
  rw [Std.ExtTreeMap.getElem?_insert] at hget
  split at hget
  · next heq =>
      cases hget
      exact ⟨Std.LawfulEqCmp.eq_of_compare heq ▸ himg, hapis⟩
  · exact h img' apis' hget

theorem Keys.insert_rule {P : Name → Prop} (h : Keys P m) (himg : P img) (hapi : P api) :
    Keys P (m.insert img ((∅ : Std.ExtTreeMap Name Rules).insert api r)) := by
  refine h.insert himg fun api' r' hget => ?_
  rw [Std.ExtTreeMap.getElem?_insert] at hget
  split at hget
  · next heq => exact Std.LawfulEqCmp.eq_of_compare heq ▸ hapi
  · rw [Std.ExtTreeMap.getElem?_empty] at hget
    exact nomatch hget

/-- What the loop keeps: one flag is set, the rule to write to is there, and the
    names are tokens. -/
inductive Reading (P : Name → Prop) : RulesParser → Prop
  | atImage {q : RulesParser} : q.flags = Phase.imgName.flags → Keys P q.rulesImageMap → Reading P q
  | atApi {q : RulesParser} {m : RulesImageMap} : q.flags = Phase.apiName.flags →
      q.rulesImageMap = m.insert q.imgName ∅ → Keys P m → P q.imgName → Reading P q
  | atRule {phase : Phase} {m : RulesImageMap} {img api : Name} {r : Rules} : phase ≠ .imgName →
      phase ≠ .apiName → Keys P m → P img → P api → Reading P (inRule phase m img api r)

/-- One token. -/
theorem Reading.step (ws : WordSize) {P : Name → Prop} (h : Reading P p) (htoken : P token) :
    ∃ p', rulesToken ws token p = some p' ∧ Reading P p' := by
  cases h with
  | atImage hflags hkeys => exact ⟨_, rulesToken_imgName hflags, .atApi rfl rfl hkeys htoken⟩
  | atApi hflags hm hkeys himg =>
      exact ⟨_, rulesToken_newRule hflags hm, .atRule (by decide) (by decide) hkeys himg htoken⟩
  | @atRule phase m img api r hphase hphase' hkeys himg hapi =>
      have hrule : ∀ {phase} (r : Rules), phase ≠ .imgName → phase ≠ .apiName →
          Reading P (inRule phase m img api r) := fun r h h' => .atRule h h' hkeys himg hapi
      cases phase with
      | imgName => exact absurd rfl hphase
      | apiName => exact absurd rfl hphase'
      | overwrite => exact ⟨_, rulesToken_inOverwrite, hrule _ (by decide) (by decide)⟩
      | sourceArg =>
          refine ⟨_, rulesToken_inSourceArg, ?_⟩
          split
          · exact hrule _ (by decide) (by decide)
          · exact hrule _ (by decide) (by decide)
      | destArg =>
          refine ⟨_, rulesToken_inDestArg, ?_⟩
          split
          · exact .atImage rfl (hkeys.insert_rule himg hapi)
          · exact hrule _ (by decide) (by decide)

theorem Reading.keys {P : Name → Prop} (h : Reading P p) : Keys P p.rulesImageMap := by
  cases h with
  | atImage _ hkeys => exact hkeys
  | atApi _ hm hkeys himg =>
      rw [hm]
      refine hkeys.insert himg fun api r hget => ?_
      rw [Std.ExtTreeMap.getElem?_empty] at hget
      exact nomatch hget
  | atRule _ _ hkeys himg hapi => exact hkeys.insert_rule himg hapi

/-- A run of tokens. -/
theorem Reading.runs (ws : WordSize) {P : Name → Prop} (h : Reading P p) {tokens : List Name}
    (htokens : ∀ t ∈ tokens, P t) :
    ∃ p', runs (rulesToken ws) tokens p = some p' ∧ Reading P p' := by
  induction tokens generalizing p with
  | nil => exact ⟨p, rfl, h⟩
  | cons t rest ih =>
      obtain ⟨ht, hrest⟩ := List.forall_mem_cons.mp htokens
      obtain ⟨p₁, hp₁, h₁⟩ := h.step ws ht
      obtain ⟨p', hp', h'⟩ := ih h₁ hrest
      refine ⟨p', ?_, h'⟩
      rw [runs_cons, hp₁]
      exact hp'

/-! ## The ranges -/

/-- `datFile`. -/
structure Datfile where
  index : Int
  start : Vector Int 256
  stop : Vector Int 256
deriving DecidableEq

/-- `datFile` before it is read. -/
def Datfile.initial : Datfile := ⟨0, Vector.replicate 256 0, Vector.replicate 256 0⟩

/-- The variables of `parseDatFiles`, and `datFile`. -/
structure DatParser where
  datFile : Datfile
  index : Nat
  count : Nat

/-- The body of the loop: an option name, a start, an end. -/
def datToken (ws : WordSize) (token : List Byte) (p : DatParser) : Option DatParser :=
  if p.count % 3 = 0 then some { p with count := p.count + 1 }
  else if h : p.index < 256 then
    if p.count % 3 = 1 then
      some { p with
        datFile := { p.datFile with start := p.datFile.start.set p.index (atoi ws.bits token) }
        count := p.count + 1 }
    else
      some {
        datFile := { p.datFile with stop := p.datFile.stop.set p.index (atoi ws.bits token) }
        index := p.index + 1
        count := p.count + 1 }
  else none

/-- `parseDatFiles` with a buffer of `size` bytes. -/
def parseDatBuffer (ws : WordSize) (size : Nat) (file : Option (List Byte)) (d : Datfile) :
    Option Datfile :=
  match file with
  | none => some d
  | some file =>
      (whileToken isDelim 0 (datToken ws) (readBuffer size file) ⟨d, 0, 0⟩).map fun p =>
        { p.datFile with index := (p.index : Int) - 1 }

/-- `parseDatFiles`. -/
def parseDatFiles (ws : WordSize) : Option (List Byte) → Datfile → Option Datfile :=
  parseDatBuffer ws 256

/-- The range is counted with the tokens. -/
theorem datToken_spec (ws : WordSize) {p : DatParser} (hindex : p.index = p.count / 3)
    (hcount : p.count < 768) (token : List Byte) :
    ∃ p', datToken ws token p = some p' ∧ p'.count = p.count + 1 ∧ p'.index = p'.count / 3 := by
  have hlt : p.index < 256 := by omega
  by_cases h₀ : p.count % 3 = 0
  · refine ⟨_, if_pos h₀, rfl, ?_⟩
    show p.index = (p.count + 1) / 3
    omega
  · rw [datToken, if_neg h₀, dif_pos hlt]
    by_cases h₁ : p.count % 3 = 1
    · rw [if_pos h₁]
      refine ⟨_, rfl, rfl, ?_⟩
      show p.index = (p.count + 1) / 3
      omega
    · rw [if_neg h₁]
      refine ⟨_, rfl, rfl, ?_⟩
      show p.index + 1 = (p.count + 1) / 3
      omega

/-- Fewer than 768 tokens stay inside the arrays. -/
theorem datToken_runs (ws : WordSize) {tokens : List (List Byte)} {p : DatParser}
    (hindex : p.index = p.count / 3) (hcount : p.count + tokens.length ≤ 768) :
    ∃ p', runs (datToken ws) tokens p = some p' ∧ p'.index = p'.count / 3 := by
  induction tokens generalizing p with
  | nil => exact ⟨p, rfl, hindex⟩
  | cons t rest ih =>
      rw [List.length_cons] at hcount
      obtain ⟨p₁, hp₁, hc, hi⟩ := datToken_spec ws hindex (by omega) t
      obtain ⟨p', hp', hi'⟩ := ih hi (by omega)
      refine ⟨p', ?_, hi'⟩
      rw [runs_cons, hp₁]
      exact hp'

/-! ## The buffer is large enough -/

/-- What is stored with the buffer of 256 bytes: the parser stays inside the
    buffer and the arrays, and stores what it would with any buffer that has room
    for the file and a terminator. -/
def StoresAll {σ : Type*} (parse : Nat → Option σ) (file : List Byte) : Prop :=
  ∃ r, parse 256 = some r ∧ ∀ size, file.length < size → parse size = some r

theorem isDelim_zero : isDelim 0 = false := by decide

/-- A parser is as good as its loop over the pieces of a short text. -/
theorem storesAll_iff {σ τ : Type*} {body : List Byte → τ → Option τ} {st : τ} {result : τ → σ}
    (file : List Byte)
    (hruns : ∀ text : List Byte, 0 ∉ text → text.length < 256 →
      ∃ st', runs body (pieces isDelim text) st = some st') :
    StoresAll (fun size => (whileToken isDelim 0 body (readBuffer size file) st).map result) file
      ↔ Terminated file := by
  constructor
  · rintro ⟨r, hr, -⟩
    by_contra hnot
    replace hr : (whileToken isDelim 0 body (readBuffer 256 file) st).map result = some r := hr
    rw [whileToken_unterminated (readBuffer_unterminated hnot)] at hr
    exact nomatch hr
  · intro h
    obtain ⟨text, htext, hlen, hbuffer⟩ := readBuffer_terminated h
    obtain ⟨st', hst'⟩ := hruns text htext hlen
    have hsize : ∀ size, size = 256 ∨ file.length < size →
        (whileToken isDelim 0 body (readBuffer size file) st).map result = some (result st') := by
      intro size hs
      obtain ⟨rest, hrest⟩ := hbuffer size hs
      rw [hrest, whileToken_terminated isDelim_zero htext, hst']
      rfl
    exact ⟨result st', hsize 256 (Or.inl rfl), fun size hs => hsize size (Or.inr hs)⟩

/-- **The fixed buffers are enough exactly for terminated files.** -/
theorem storesAll_iff_terminated (rulesFile offsetFile : List Byte) (m : RulesImageMap) (d : Datfile) :
    StoresAll (fun size => parseRulesBuffer ws size (some rulesFile) m) rulesFile
        ∧ StoresAll (fun size => parseDatBuffer ws size (some offsetFile) d) offsetFile
      ↔ Terminated rulesFile ∧ Terminated offsetFile := by
  refine and_congr (storesAll_iff rulesFile fun text _ _ => ?_)
    (storesAll_iff offsetFile fun text _ hlen => ?_)
  · have hstart : Reading (fun _ => True) (.initial m) :=
      .atImage rfl fun _ _ _ => ⟨trivial, fun _ _ _ => trivial⟩
    obtain ⟨p', hp', -⟩ := hstart.runs ws fun (_ : Name) (_ : _ ∈ pieces isDelim text) => trivial
    exact ⟨p', hp'⟩
  · have hcount := (pieces_spec isDelim text).1
    have hindex : (DatParser.mk d 0 0).index = (DatParser.mk d 0 0).count / 3 :=
      (Nat.zero_div 3).symm
    have hfew : 0 + (pieces isDelim text).length ≤ 768 := by omega
    obtain ⟨p', hp', -⟩ := datToken_runs ws hindex hfew
    exact ⟨p', hp'⟩

theorem not_terminated_replicate : ¬ Terminated (List.replicate 256 97) := by
  rintro (hlt | hmem)
  · rw [List.length_replicate] at hlt
    exact absurd hlt (Nat.lt_irrefl 256)
  · exact absurd (List.eq_of_mem_replicate (List.mem_of_mem_take hmem)) (by decide)

/-- Files of 256 bytes that are no zeros: `strtok` leaves the buffer. -/
theorem fullBuffer_overrun :
    parseRulesFile .w64 (some (List.replicate 256 97)) ∅ = none
      ∧ parseDatFiles .w64 (some (List.replicate 256 97)) .initial = none := by
  have hbuffer := readBuffer_unterminated not_terminated_replicate
  constructor
  · rw [parseRulesFile, parseRulesBuffer, whileToken_unterminated hbuffer]
    rfl
  · rw [parseDatFiles, parseDatBuffer, whileToken_unterminated hbuffer]
    rfl

end DytanConfigFiles
