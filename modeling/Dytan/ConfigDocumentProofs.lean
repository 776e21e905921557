import Dytan.SourceSetupProofs

/-! # The configuration document

    `parseConfig` reads `conf_rules.dat`, then walks over the document: the
    children of the root by their names, the sources and the marks below
    `sources`, three flags below `propagation`.

    It looks at names only, so anything may stand in between, sections may come
    more than once, and what comes last counts; but every `propagation` element
    starts from three flags that are false.  Where an element has no text the
    tool ends.  What the function reads of a document, and when it does not
    return, is `parseConfig_spec`; a document written for a configuration gives
    that configuration (`parseConfig_written`). -/

namespace DytanConfigDocument

open DytanRegister DytanConfigFiles DytanSourceSetup Decimal Tokens Runs

variable {ws : WordSize}

/-- `xmlNode`. -/
inductive Node where
  | element (name : String) (props : List (String × String)) (children : List Node)
  | text (content : String)
  | comment (content : String)

/-- `name`; nodes that are no elements have fixed ones. -/
def Node.name : Node → String
  | .element name _ _ => name
  | .text _ => "text"
  | .comment _ => "comment"

def Node.children : Node → List Node
  | .element _ _ children => children
  | _ => []

/-- `xmlGetProp`. -/
def Node.prop (key : String) : Node → Option String
  | .element _ props _ => (props.find? fun p => p.1 = key).map Prod.snd
  | _ => none

section Parser

variable (getString : List Node → Option String) (ws) (rulesFile offsetFile : Option (List Byte))

/-! ## The parser

    `getString` is `xmlNodeListGetString`. -/

/-- The children of a `source` element, as its loop takes them. -/
def sourceChild : Node → SourceChild
  | .element name _ children => .element name (getString children)
  | _ => .other

/-- The children of a `sources` element. -/
def sourcesChild (cur : Node) : SourcesChild :=
  if cur.name = "source" then .source (cur.prop "type") (cur.children.map (sourceChild getString))
  else if cur.name = "taint-marks" then .taintMarks (getString cur.children)
  else .other

/-- `propagation`. -/
structure Propagation where
  dataflow : Bool
  controlflow : Bool
  tracing : Bool
deriving DecidableEq, Repr

/-- One turn of the loop of `parsePropagation`.  `strcmp` needs a text. -/
def readFlag (cur : Node) (prop : Propagation) : Option Propagation :=
  if cur.name = "dataflow" then
    (getString cur.children).map fun key => { prop with dataflow := decide (key = "true") }
  else if cur.name = "controlflow" then
    (getString cur.children).map fun key => { prop with controlflow := decide (key = "true") }
  else if cur.name = "tracing" then
    (getString cur.children).map fun key => { prop with tracing := decide (key = "true") }
  else some prop

/-- `parsePropagation`. -/
def parsePropagation (cur : Node) : Option Propagation :=
  runs (readFlag getString) cur.children ⟨false, false, false⟩

/-- What has been read.  The flags of a new `config` are uninitialised. -/
structure Parsed where
  conf : Configuration
  prop : Option Propagation
  datFile : Datfile
  rulesImageMap : RulesImageMap

def Parsed.initial : Parsed := ⟨.empty, none, .initial, ∅⟩

/-- One turn of the loop of `parseConfig`.  `parseSinks` only logs. -/
def readSection (sub : Node) (s : Parsed) : Option Parsed :=
  if sub.name = "sources" then do
    let (conf, datFile) ← parseSources ws offsetFile (sub.children.map (sourcesChild getString))
      (s.conf, s.datFile)
    some { s with conf := conf, datFile := datFile }
  else if sub.name = "propagation" then do
    let prop ← parsePropagation getString sub
    some { s with prop := some prop }
  else some s

/-- `parseConfig`.  `doc` is what `xmlParseFile` and `xmlDocGetRootElement`
    return. -/
def parseConfig (doc : Option (Option Node)) (s : Parsed) : Option (Int × Parsed) := do
  let rulesImageMap ← parseRulesFile ws rulesFile s.rulesImageMap
  let s := { s with rulesImageMap := rulesImageMap }
  match doc with
  | none => some (-1, s)
  | some none => some (-1, s)
  | some (some cur) =>
      if cur.name ≠ "dytan-config" then some (-1, s)
      else do
        let s ← runs (readSection ws getString offsetFile) cur.children s
        some (0, s)

/-- The text of a node of that name. -/
def textOf (name : String) (cur : Node) : Option String :=
  if cur.name = name then getString cur.children else none

/-- The last element of that name is `true`. -/
def flag (name : String) (children : List Node) (default : Bool) : Bool :=
  ((children.filterMap (textOf getString name)).getLast?.map fun key => decide (key = "true")).getD
    default

def propagationOf (cur : Node) : Propagation :=
  ⟨flag getString "dataflow" cur.children false, flag getString "controlflow" cur.children false,
    flag getString "tracing" cur.children false⟩

/-- All sources and marks, section by section. -/
def sourcesNodes (children : List Node) : List SourcesChild :=
  (children.filter fun sub => sub.name = "sources").flatMap fun sub =>
    sub.children.map (sourcesChild getString)

/-- The flags of the last section. -/
def lastPropagation (children : List Node) : Option Propagation :=
  (children.filter fun sub => sub.name = "propagation").getLast?.map (propagationOf getString)

/-- The root of a configuration. -/
def configRoot (doc : Option (Option Node)) : Option Node :=
  doc.join.filter fun cur => cur.name = "dytan-config"

/-- A file that is not there is no matter; one that is has to be terminated. -/
def FileOk (file : Option (List Byte)) : Prop := ∀ text ∈ file, Terminated text

/-- The element has a text, and the ranges can be read if they are needed. -/
def ChildLegible : SourceChild → Prop
  | .other => True
  | .element name text => text ≠ none
      ∧ (name = "granularity" → text = some "PerOffset" → FileOk offsetFile)

def SourcesLegible : SourcesChild → Prop
  | .other => True
  | .taintMarks text => text ≠ none
  | .source type children => type ≠ none → ∀ child ∈ children, ChildLegible offsetFile child

/-- The elements of a section have a text where the parser needs one. -/
def SectionLegible (sub : Node) : Prop :=
  (sub.name = "sources" →
      ∀ cur ∈ sub.children, SourcesLegible offsetFile (sourcesChild getString cur))
    ∧ (sub.name = "propagation" → ∀ cur ∈ sub.children,
      cur.name ∈ ["dataflow", "controlflow", "tracing"] → getString cur.children ≠ none)

def Legible (root : Node) : Prop := ∀ sub ∈ root.children, SectionLegible getString offsetFile sub

end Parser

/-- A run goes through if each step can be made in any state. -/
theorem runs_isSome_iff {E S : Type*} {step : E → S → Option S} {P : E → Prop}
    (h : ∀ e s, (step e s).isSome ↔ P e) (es : List E) (s : S) :
    (runs step es s).isSome ↔ ∀ e ∈ es, P e := by
  induction es generalizing s with
  | nil => exact iff_of_true rfl nofun
  | cons e es ih =>
      rw [runs_cons, List.forall_mem_cons, ← h e s]
      cases hstep : step e s with
      | none => exact iff_of_false Bool.false_ne_true fun hall => Bool.false_ne_true hall.1
      | some s' => exact (ih s').trans (and_iff_right rfl).symm

/-- A loop over the tokens of a buffer returns exactly if the file is terminated. -/
theorem whileToken_isSome_iff {σ : Type*} {body : List Byte → σ → Option σ} {st : σ} (file : List Byte)
    (hruns : ∀ text : List Byte, 0 ∉ text → text.length < 256 →
      ∃ st', runs body (pieces isDelim text) st = some st') :
    (whileToken isDelim 0 body (readBuffer 256 file) st).isSome ↔ Terminated file := by
  constructor
  · intro hsome
    by_contra hnot
    rw [whileToken_unterminated (readBuffer_unterminated hnot)] at hsome
    exact Bool.false_ne_true hsome
  · intro h
    obtain ⟨text, htext, hlen, hbuffer⟩ := readBuffer_terminated h
    obtain ⟨rest, hrest⟩ := hbuffer 256 (Or.inl rfl)
    obtain ⟨st', hst'⟩ := hruns text htext hlen
    rw [hrest, whileToken_terminated isDelim_zero htext, hst']
    rfl

theorem fileOk_some {text : List Byte} : FileOk (some text) ↔ Terminated text := by
  constructor
  · intro h
    exact h text rfl
  · rintro h _ ⟨⟩
    exact h

theorem parseRulesFile_isSome (ws : WordSize) (file : Option (List Byte)) (m : RulesImageMap) :
    (parseRulesFile ws file m).isSome ↔ FileOk file := by
  cases file with
  | none => exact iff_of_true rfl nofun
  | some text =>
      rw [fileOk_some, parseRulesFile, parseRulesBuffer, Option.isSome_map]
      refine whileToken_isSome_iff text fun text _ _ => ?_
      have hstart : Reading (fun _ => True) (.initial m) :=
        .atImage rfl fun _ _ _ => ⟨trivial, fun _ _ _ => trivial⟩
      obtain ⟨p, hp, -⟩ := hstart.runs ws fun (_ : Name) (_ : _ ∈ pieces isDelim text) => trivial
      exact ⟨p, hp⟩

theorem parseDatFiles_isSome (ws : WordSize) (file : Option (List Byte)) (d : Datfile) :
    (parseDatFiles ws file d).isSome ↔ FileOk file := by
  cases file with
  | none => exact iff_of_true rfl nofun
  | some text =>
      rw [fileOk_some, parseDatFiles, parseDatBuffer, Option.isSome_map]
      refine whileToken_isSome_iff text fun text _ hlen => ?_
      have hcount := (pieces_spec isDelim text).1
      have hindex : (DatParser.mk d 0 0).index = (DatParser.mk d 0 0).count / 3 :=
        (Nat.zero_div 3).symm
      have hfew : 0 + (pieces isDelim text).length ≤ 768 := by omega
      obtain ⟨p, hp, -⟩ := datToken_runs ws hindex hfew
      exact ⟨p, hp⟩

variable {getString : List Node → Option String} {rulesFile offsetFile : Option (List Byte)}

theorem readChild_isSome (ws : WordSize) (offsetFile : Option (List Byte)) (child : SourceChild)
    (s : TaintSource × Datfile) :
    (readChild ws offsetFile child s).isSome ↔ ChildLegible offsetFile child := by
  cases child with
  | other => exact iff_of_true rfl trivial
  | element name text =>
      cases text with
      | none => exact iff_of_false Bool.false_ne_true fun h => h.1 rfl
      | some text =>
          rw [readChild]
          by_cases hname : name = "granularity"
          · rw [if_pos hname]
            show (Option.bind (readRanges ws offsetFile text s.2) _).isSome ↔ _
            rw [readRanges]
            by_cases htext : text = "PerOffset"
            · rw [if_pos htext, Option.isSome_bind]
              show (Option.any (fun _ => true) (parseDatFiles ws offsetFile s.2) : Prop) ↔ _
              rw [Option.any_true, parseDatFiles_isSome]
              exact ⟨fun h => ⟨Option.some_ne_none text, fun _ _ => h⟩,
                fun h => h.2 hname (congrArg some htext)⟩
            · rw [if_neg htext]
              exact iff_of_true rfl ⟨Option.some_ne_none text, fun _ heq =>
                absurd (Option.some.inj heq) htext⟩
          · rw [if_neg hname]
            exact iff_of_true rfl ⟨Option.some_ne_none text, fun heq => absurd heq hname⟩

theorem readSources_isSome (ws : WordSize) (offsetFile : Option (List Byte)) (child : SourcesChild)
    (s : Configuration × Datfile) :
    (readSources ws offsetFile child s).isSome ↔ SourcesLegible offsetFile child := by
  cases child with
  | other => exact iff_of_true rfl trivial
  | taintMarks text =>
      cases text with
      | none => exact iff_of_false Bool.false_ne_true fun h => h rfl
      | some text => exact iff_of_true rfl (Option.some_ne_none text)
  | source type children =>
      cases type with
      | none => exact iff_of_true rfl fun h => absurd rfl h
      | some type =>
          have hruns := runs_isSome_iff (readChild_isSome ws offsetFile) children
            (⟨type, "", []⟩, s.2)
          show (Option.bind (runs (readChild ws offsetFile) children (⟨type, "", []⟩, s.2)) _).isSome ↔ _
          rw [Option.isSome_bind]
          show (Option.any (fun _ => true) _ : Prop) ↔ _
          rw [Option.any_true, hruns]
          exact ⟨fun h _ => h, fun h => h (Option.some_ne_none type)⟩

theorem readFlag_isSome (getString : List Node → Option String) (cur : Node) (prop : Propagation) :
    (readFlag getString cur prop).isSome
      ↔ (cur.name ∈ ["dataflow", "controlflow", "tracing"] → getString cur.children ≠ none) := by
  rw [readFlag, ← Option.isSome_iff_ne_none]
  split
  · next hname => rw [Option.isSome_map, hname]; simp
  split
  · next hname => rw [Option.isSome_map, hname]; simp
  split
  · next hname => rw [Option.isSome_map, hname]; simp
  · next h₁ h₂ h₃ => exact iff_of_true rfl fun hmem => absurd hmem (by simp [h₁, h₂, h₃])

theorem readSection_isSome (ws : WordSize) (getString : List Node → Option String)
    (offsetFile : Option (List Byte)) (sub : Node) (s : Parsed) :
    (readSection ws getString offsetFile sub s).isSome ↔ SectionLegible getString offsetFile sub := by
  rw [readSection]
  split
  · next hname =>
      have hruns := runs_isSome_iff (readSources_isSome ws offsetFile)
        (sub.children.map (sourcesChild getString)) (s.conf, s.datFile)
      show (Option.bind (parseSources ws offsetFile _ _) _).isSome ↔ _
      rw [Option.isSome_bind]
      show (Option.any (fun _ => true) _ : Prop) ↔ _
      rw [Option.any_true, parseSources, hruns, List.forall_mem_map]
      have hother : sub.name ≠ "propagation" := by
        rw [hname]
        decide
      exact ⟨fun h => ⟨fun _ => h, fun heq => absurd heq hother⟩, fun h => h.1 hname⟩
  split
  · next hother hname =>
      have hruns := runs_isSome_iff (readFlag_isSome getString) sub.children ⟨false, false, false⟩
      show (Option.bind (parsePropagation getString sub) _).isSome ↔ _
      rw [Option.isSome_bind]
      show (Option.any (fun _ => true) _ : Prop) ↔ _
      rw [Option.any_true, parsePropagation, hruns]
      exact ⟨fun h => ⟨fun heq => absurd heq hother, fun _ => h⟩, fun h => h.2 hname⟩
  · next h₁ h₂ =>
      exact iff_of_true rfl ⟨fun heq => absurd heq h₁, fun heq => absurd heq h₂⟩

/-! ## What is read -/

theorem flag_cons (name : String) (cur : Node) (children : List Node) (default : Bool) :
    flag getString name (cur :: children) default
      = flag getString name children
          (((textOf getString name cur).map fun key => decide (key = "true")).getD default) := by
  rw [flag, flag, List.filterMap_cons]
  cases textOf getString name cur with
  | none => rfl
  | some key =>
      rw [List.getLast?_cons]
      cases (children.filterMap (textOf getString name)).getLast? with
      | none => rfl
      | some last => rfl

/-- One turn sets the flag of the element's name, if it is one of the three. -/
theorem readFlag_eq {cur : Node} {prop prop' : Propagation}
    (h : readFlag getString cur prop = some prop') :
    prop' = ⟨((textOf getString "dataflow" cur).map fun key => decide (key = "true")).getD prop.dataflow,
      ((textOf getString "controlflow" cur).map fun key => decide (key = "true")).getD
        prop.controlflow,
      ((textOf getString "tracing" cur).map fun key => decide (key = "true")).getD prop.tracing⟩ := by
  rw [readFlag] at h
  rw [textOf, textOf, textOf]
  split at h
  · next hname =>
      obtain ⟨key, hkey, rfl⟩ := Option.map_eq_some_iff.mp h
      simp [hname, hkey]
  split at h
  · next hname =>
      obtain ⟨key, hkey, rfl⟩ := Option.map_eq_some_iff.mp h
      simp [hname, hkey]
  split at h
  · next hname =>
      obtain ⟨key, hkey, rfl⟩ := Option.map_eq_some_iff.mp h
      simp [hname, hkey]
  · next h₁ h₂ h₃ =>
      cases h
      rw [if_neg h₁, if_neg h₂, if_neg h₃]
      rfl

theorem parsePropagation_eq {cur : Node} {prop : Propagation}
    (h : parsePropagation getString cur = some prop) : prop = propagationOf getString cur := by
  have hruns : ∀ (children : List Node) (start : Propagation),
      runs (readFlag getString) children start = some prop →
      prop = ⟨flag getString "dataflow" children start.dataflow,
        flag getString "controlflow" children start.controlflow,
        flag getString "tracing" children start.tracing⟩ := by
    intro children
    induction children with
    | nil =>
        intro start hstart
        cases hstart
        rfl
    | cons cur rest ih =>
        intro start hstart
        rw [runs_cons] at hstart
        obtain ⟨next, hstep, hrest⟩ := Option.bind_eq_some_iff.mp hstart
        rw [flag_cons, flag_cons, flag_cons, ih next hrest, readFlag_eq hstep]
  exact hruns cur.children _ h

theorem sourcesNodes_cons (sub : Node) (rest : List Node) :
    sourcesNodes getString (sub :: rest)
      = (if sub.name = "sources" then sub.children.map (sourcesChild getString) else [])
        ++ sourcesNodes getString rest := by
  rw [sourcesNodes, List.filter_cons]
  simp only [decide_eq_true_eq]
  split
  · rfl
  · rfl

theorem lastPropagation_cons (sub : Node) (rest : List Node) :
    lastPropagation getString (sub :: rest) = (lastPropagation getString rest).or
      (if sub.name = "propagation" then some (propagationOf getString sub) else none) := by
  rw [lastPropagation, lastPropagation, List.filter_cons]
  simp only [decide_eq_true_eq]
  split
  · rw [List.getLast?_cons]
    cases (rest.filter fun sub => decide (sub.name = "propagation")).getLast? with
    | none => rfl
    | some last => rfl
  · rw [Option.or_none]

/-- One section. -/
theorem readSection_eq {sub : Node} {s s' : Parsed}
    (h : readSection ws getString offsetFile sub s = some s') :
    parseSources ws offsetFile
        (if sub.name = "sources" then sub.children.map (sourcesChild getString) else [])
        (s.conf, s.datFile) = some (s'.conf, s'.datFile)
      ∧ s'.prop = (if sub.name = "propagation" then some (propagationOf getString sub)
          else none).or s.prop
      ∧ s'.rulesImageMap = s.rulesImageMap := by
  rw [readSection] at h
  by_cases hsources : sub.name = "sources"
  · have hother : sub.name ≠ "propagation" := by
      rw [hsources]
      decide
    rw [if_pos hsources] at h
    obtain ⟨⟨conf, datFile⟩, hread, h⟩ := Option.bind_eq_some_iff.mp h
    cases h
    rw [if_pos hsources, if_neg hother]
    exact ⟨hread, rfl, rfl⟩
  · rw [if_neg hsources] at h
    rw [if_neg hsources]
    by_cases hprop : sub.name = "propagation"
    · rw [if_pos hprop] at h
      obtain ⟨prop, hread, h⟩ := Option.bind_eq_some_iff.mp h
      cases h
      rw [if_pos hprop, ← parsePropagation_eq hread]
      exact ⟨rfl, rfl, rfl⟩
    · rw [if_neg hprop] at h
      cases h
      rw [if_neg hprop]
      exact ⟨rfl, rfl, rfl⟩

/-- The sections are read as one list of sources and marks, and the flags are
    those of the last section. -/
theorem readSection_runs {children : List Node} {s s' : Parsed}
    (h : runs (readSection ws getString offsetFile) children s = some s') :
    parseSources ws offsetFile (sourcesNodes getString children) (s.conf, s.datFile)
        = some (s'.conf, s'.datFile)
      ∧ s'.prop = (lastPropagation getString children).or s.prop
      ∧ s'.rulesImageMap = s.rulesImageMap := by
  induction children generalizing s with
  | nil =>
      cases h
      exact ⟨rfl, rfl, rfl⟩
  | cons sub rest ih =>
      rw [runs_cons] at h
      obtain ⟨s₁, hstep, hrest⟩ := Option.bind_eq_some_iff.mp h
      obtain ⟨hsources₁, hprop₁, hrules₁⟩ := readSection_eq hstep
      obtain ⟨hsources, hprop, hrules⟩ := ih hrest
      refine ⟨?_, ?_, hrules.trans hrules₁⟩
      · rw [sourcesNodes_cons, parseSources, runs_append]
        show (parseSources ws offsetFile _ _).bind _ = _
        rw [hsources₁]
        exact hsources
      · rw [hprop, hprop₁, lastPropagation_cons, Option.or_assoc]

/-- The three checks look for a configuration. -/
theorem parseConfig_eq (doc : Option (Option Node)) (s : Parsed) :
    parseConfig ws getString rulesFile offsetFile doc s
      = (parseRulesFile ws rulesFile s.rulesImageMap).bind fun m =>
          (configRoot doc).elim (some (-1, { s with rulesImageMap := m })) fun root =>
            (runs (readSection ws getString offsetFile) root.children
              { s with rulesImageMap := m }).map fun s => (0, s) := by
  rw [parseConfig]
  refine congrArg _ (funext fun m => ?_)
  match doc with
  | none => rfl
  | some none => rfl
  | some (some cur) =>
      by_cases hname : cur.name = "dytan-config"
      · have hroot : configRoot (some (some cur)) = some cur :=
          Option.filter_some_pos (decide_eq_true hname)
        rw [hroot]
        show (if cur.name ≠ "dytan-config" then _ else _) = _
        rw [if_neg (not_not.mpr hname)]
        show Option.bind _ _ = Option.map _ _
        rw [Option.map_eq_bind]
        rfl
      · have hroot : configRoot (some (some cur)) = none :=
          Option.filter_some_neg (decide_eq_false hname)
        rw [hroot]
        show (if cur.name ≠ "dytan-config" then _ else _) = _
        rw [if_pos hname]
        rfl

/-- `parseConfig` returns exactly if the files and the root can be read. -/
theorem parseConfig_isSome (ws : WordSize) (getString : List Node → Option String)
    (rulesFile offsetFile : Option (List Byte)) (doc : Option (Option Node)) :
    (parseConfig ws getString rulesFile offsetFile doc .initial).isSome
      ↔ FileOk rulesFile ∧ ∀ root ∈ configRoot doc, Legible getString offsetFile root := by
  rw [parseConfig_eq, ← parseRulesFile_isSome ws rulesFile Parsed.initial.rulesImageMap]
  cases parseRulesFile ws rulesFile Parsed.initial.rulesImageMap with
  | none => exact iff_of_false Bool.false_ne_true fun h => Bool.false_ne_true h.1
  | some m =>
      cases configRoot doc with
      | none => exact iff_of_true rfl ⟨rfl, nofun⟩
      | some root =>
          have hlegible := runs_isSome_iff (readSection_isSome ws getString offsetFile) root.children
            { Parsed.initial with rulesImageMap := m }
          show (Option.map _ (runs (readSection ws getString offsetFile) root.children _)).isSome ↔ _
          rw [Option.isSome_map, hlegible]
          exact ⟨fun h => ⟨rfl, fun _ heq => Option.some.inj heq ▸ h⟩, fun h => h.2 root rfl⟩

/-- What it has read when it returns. -/
theorem parseConfig_result {doc : Option (Option Node)} {result : Int} {s : Parsed}
    (h : parseConfig ws getString rulesFile offsetFile doc .initial = some (result, s)) :
    (configRoot doc = none ∧ result = -1 ∧ s.conf = .empty ∧ s.prop = none)
      ∨ ∃ root, configRoot doc = some root ∧ result = 0
        ∧ s.conf = ⟨taintSources (sourcesNodes getString root.children),
          taintMarks (sourcesNodes getString root.children)⟩
        ∧ s.prop = lastPropagation getString root.children := by
  rw [parseConfig_eq] at h
  obtain ⟨m, -, h⟩ := Option.bind_eq_some_iff.mp h
  cases hroot : configRoot doc with
  | none =>
      rw [hroot] at h
      cases h
      exact Or.inl ⟨rfl, rfl, rfl, rfl⟩
  | some root =>
      rw [hroot] at h
      obtain ⟨s₁, hrun, hs⟩ := Option.map_eq_some_iff.mp h
      cases hs
      obtain ⟨hsources, hprop, -⟩ := readSection_runs hrun
      exact Or.inr ⟨root, rfl, rfl, parseSources_eq hsources, hprop.trans Option.or_none⟩

def Node.isElement : Node → Bool
  | .element .. => true
  | _ => false

/-- The elements, with texts and comments anywhere in between. -/
def Spaced (elements children : List Node) : Prop := children.filter Node.isElement = elements

/-- An element with a text. -/
def leaf (name text : String) : Node := .element name [] [.text text]

/-- A `source` element for a source. -/
def IsSourceNode (src : TaintSource) (cur : Node) : Prop :=
  ∃ children, cur = .element "source" [("type", src.type)] children
    ∧ Spaced (src.details.map (fun d => leaf d.element d.text)
      ++ [leaf "granularity" src.granularity]) children

def flagText (b : Bool) : String := if b then "true" else "false"

def flagNodes (prop : Propagation) : List Node :=
  [leaf "dataflow" (flagText prop.dataflow), leaf "controlflow" (flagText prop.controlflow),
    leaf "tracing" (flagText prop.tracing)]

/-- A document for a configuration. -/
def IsDocument (conf : Configuration) (prop : Propagation) (root : Node) : Prop :=
  ∃ children sourcesChildren propChildren sourceNodes,
    root = .element "dytan-config" [] children
    ∧ Spaced [.element "sources" [] sourcesChildren, .element "propagation" [] propChildren] children
    ∧ Spaced (sourceNodes ++ [leaf "taint-marks" conf.numMarkings]) sourcesChildren
    ∧ List.Forall₂ IsSourceNode conf.sources sourceNodes
    ∧ Spaced (flagNodes prop) propChildren

/-- What can be written of a source: no text is empty, no detail is called
    granularity, and the ranges can be read if they are needed. -/
structure SourceWritable (offsetFile : Option (List Byte)) (src : TaintSource) : Prop where
  granularity : src.granularity ≠ ""
  ranges : src.granularity = "PerOffset" → FileOk offsetFile
  details : ∀ d ∈ src.details, d.text ≠ "" ∧ d.element ≠ "granularity"

structure Writable (offsetFile : Option (List Byte)) (conf : Configuration) : Prop where
  marks : conf.numMarkings ≠ ""
  sources : ∀ src ∈ conf.sources, SourceWritable offsetFile src

variable {elements children : List Node}

theorem Spaced.mem (h : Spaced elements children) {cur : Node} (hcur : cur ∈ children) :
    cur ∈ elements ∨ cur.isElement = false := by
  cases hkind : cur.isElement with
  | true => exact Or.inl (h ▸ List.mem_filter.mpr ⟨hcur, hkind⟩)
  | false => exact Or.inr rfl

/-- Nodes that are no elements are skipped. -/
theorem sourcesChild_other {cur : Node} (h : cur.isElement = false) :
    sourcesChild getString cur = .other := by
  cases cur with
  | element n props children => exact nomatch h
  | text content => rfl
  | comment content => rfl

theorem sourceChild_other {cur : Node} (h : cur.isElement = false) :
    sourceChild getString cur = .other := by
  cases cur with
  | element n props children => exact nomatch h
  | text content => rfl
  | comment content => rfl

/-- What skips other nodes sees the elements only. -/
theorem Spaced.filterMap {γ : Type} (h : Spaced elements children) {f : Node → Option γ}
    (hf : ∀ cur, cur.isElement = false → f cur = none) :
    children.filterMap f = elements.filterMap f := by
  rw [← h, List.filterMap_filter]
  refine List.filterMap_congr fun cur _ => ?_
  cases hkind : cur.isElement with
  | true => rfl
  | false => exact hf cur hkind

theorem Spaced.filterMap_map {β γ : Type} (h : Spaced elements children) {read : Node → β} {other : β}
    (hread : ∀ cur, cur.isElement = false → read cur = other) {f : β → Option γ}
    (hf : f other = none) : (children.map read).filterMap f = (elements.map read).filterMap f := by
  rw [List.filterMap_map, List.filterMap_map]
  exact h.filterMap fun cur hcur => (congrArg f (hread cur hcur)).trans hf

theorem Spaced.filter_name (h : Spaced elements children) {name : String}
    (hname : name ≠ "text" ∧ name ≠ "comment") :
    children.filter (fun cur => cur.name = name) = elements.filter fun cur => cur.name = name := by
  rw [← h, List.filter_filter]
  refine List.filter_congr fun cur _ => ?_
  cases cur with
  | element n props children => exact (Bool.and_true _).symm
  | text content => exact (decide_eq_false hname.1.symm).trans (Bool.and_false _).symm
  | comment content => exact (decide_eq_false hname.2.symm).trans (Bool.and_false _).symm

/-! ### Sources -/

/-- `xmlNodeListGetString` reads a text that is not empty. -/
def ReadsText (getString : List Node → Option String) : Prop :=
  ∀ s, s ≠ "" → getString [.text s] = some s

variable {conf : Configuration} {prop : Propagation} {src : TaintSource}

theorem sourceChild_leaf (hget : ReadsText getString) (name : String) {text : String}
    (htext : text ≠ "") : sourceChild getString (leaf name text) = .element name (some text) :=
  congrArg (SourceChild.element name) (hget text htext)

/-- What the loop takes of the elements of a source. -/
def writtenChildren (src : TaintSource) : List SourceChild :=
  src.details.map (fun d => .element d.element (some d.text))
    ++ [.element "granularity" (some src.granularity)]

theorem map_sourceChild (hget : ReadsText getString) (hsrc : SourceWritable offsetFile src) :
    (src.details.map (fun d => leaf d.element d.text) ++ [leaf "granularity" src.granularity]).map
      (sourceChild getString) = writtenChildren src := by
  rw [List.map_append, List.map_map, List.map_singleton, sourceChild_leaf hget _ hsrc.granularity]
  refine congrArg (· ++ _) (List.map_congr_left fun d hd => ?_)
  exact sourceChild_leaf hget _ (hsrc.details d hd).1

theorem sourceOf_written (hsrc : SourceWritable offsetFile src) :
    sourceOf (some src.type) (writtenChildren src) = src := by
  have hlast : (SourceChild.element "granularity" (some src.granularity)).granularity
      = some src.granularity := rfl
  have hnone : (SourceChild.element "granularity" (some src.granularity)).detail = none := rfl
  have hsome : ∀ d ∈ src.details,
      (SourceChild.detail ∘ fun d : Detail => .element d.element (some d.text)) d = some d :=
    fun d hd => if_neg (hsrc.details d hd).2
  have hdetail : (writtenChildren src).filterMap SourceChild.detail = src.details := by
    rw [writtenChildren, List.filterMap_append, List.filterMap_map, List.filterMap_congr hsome,
      List.filterMap_some, List.filterMap_cons_none hnone, List.filterMap_nil, List.append_nil]
  have hgranularity : ((writtenChildren src).filterMap SourceChild.granularity).getLast?
      = some src.granularity := by
    rw [writtenChildren, List.filterMap_append, List.filterMap_cons_some hlast, List.filterMap_nil,
      List.getLast?_concat]
  rw [sourceOf, hdetail, hgranularity]
  rfl

/-- The element of a source says what the source is, and is legible. -/
theorem sourcesChild_node (hget : ReadsText getString) {cur : Node} (h : IsSourceNode src cur)
    (hsrc : SourceWritable offsetFile src) :
    (sourcesChild getString cur).taintSource = some src
      ∧ (sourcesChild getString cur).marks = none
      ∧ SourcesLegible offsetFile (sourcesChild getString cur) := by
  obtain ⟨children, rfl, hspaced⟩ := h
  have hread : ∀ {γ : Type} {f : SourceChild → Option γ}, f .other = none →
      (children.map (sourceChild getString)).filterMap f = (writtenChildren src).filterMap f := by
    intro γ f hf
    rw [hspaced.filterMap_map (fun _ => sourceChild_other) hf, map_sourceChild hget hsrc]
  refine ⟨?_, rfl, fun _ child hchild => ?_⟩
  · show some (sourceOf (some src.type) (children.map (sourceChild getString))) = some src
    rw [← sourceOf_written hsrc, sourceOf, sourceOf, hread rfl, hread rfl]
  · obtain ⟨cur, hcur, rfl⟩ := List.mem_map.mp hchild
    rcases hspaced.mem hcur with hmem | hother
    · have hwritten := List.mem_map_of_mem (f := sourceChild getString) hmem
      rw [map_sourceChild hget hsrc] at hwritten
      rcases List.mem_append.mp hwritten with hd | hg
      · obtain ⟨d, hd, heq⟩ := List.mem_map.mp hd
        rw [← heq]
        exact ⟨Option.some_ne_none _, fun hname => absurd hname (hsrc.details d hd).2⟩
      · rw [List.mem_singleton.mp hg]
        exact ⟨Option.some_ne_none _, fun _ heq => hsrc.ranges (Option.some.inj heq)⟩
    · rw [sourceChild_other hother]
      trivial

/-- The elements of all sources. -/
theorem sourceNodes_read (hget : ReadsText getString) {sources : List TaintSource}
    {sourceNodes : List Node} (h : List.Forall₂ IsSourceNode sources sourceNodes)
    (hsources : ∀ src ∈ sources, SourceWritable offsetFile src) :
    (sourceNodes.map (sourcesChild getString)).filterMap SourcesChild.taintSource = sources
      ∧ (sourceNodes.map (sourcesChild getString)).filterMap SourcesChild.marks = []
      ∧ ∀ cur ∈ sourceNodes, SourcesLegible offsetFile (sourcesChild getString cur) := by
  induction h with
  | nil => exact ⟨rfl, rfl, nofun⟩
  | cons hnode _ ih =>
      obtain ⟨hsrc, hrest⟩ := List.forall_mem_cons.mp hsources
      obtain ⟨hsource, hmarks, hlegible⟩ := sourcesChild_node hget hnode hsrc
      obtain ⟨ihsource, ihmarks, ihlegible⟩ := ih hrest
      refine ⟨?_, ?_, List.forall_mem_cons.mpr ⟨hlegible, ihlegible⟩⟩
      · rw [List.map_cons, List.filterMap_cons_some hsource, ihsource]
      · rw [List.map_cons, List.filterMap_cons_none hmarks, ihmarks]

/-! ### The whole document -/

theorem flagText_ne (b : Bool) : flagText b ≠ "" := by
  cases b with
  | false => decide
  | true => decide

theorem flagText_eq (b : Bool) : decide (flagText b = "true") = b := by
  cases b with
  | false => decide
  | true => decide

/-- The flags of a written section. -/
theorem propagationOf_written (hget : ReadsText getString) {children : List Node}
    (h : Spaced (flagNodes prop) children) (name : String) (props : List (String × String)) :
    propagationOf getString (.element name props children) = prop := by
  have htext : ∀ b, getString [.text (flagText b)] = some (flagText b) := fun b =>
    hget _ (flagText_ne b)
  have hflag : ∀ key, key ≠ "text" ∧ key ≠ "comment" →
      children.filterMap (textOf getString key) = (flagNodes prop).filterMap (textOf getString key) := by
    intro key hkey
    refine h.filterMap fun cur hcur => ?_
    cases cur with
    | element n props children => exact nomatch hcur
    | text content => exact if_neg hkey.1.symm
    | comment content => exact if_neg hkey.2.symm
  show Propagation.mk (flag getString "dataflow" children false)
    (flag getString "controlflow" children false) (flag getString "tracing" children false) = prop
  rw [flag, flag, flag, hflag _ (by decide), hflag _ (by decide), hflag _ (by decide)]
  simp [flagNodes, textOf, leaf, Node.name, Node.children, htext, flagText_eq]

/-- A written document is legible. -/
theorem legible_written (hget : ReadsText getString) {sourcesChildren propChildren sourceNodes : List Node}
    (hchildren : Spaced [.element "sources" [] sourcesChildren, .element "propagation" [] propChildren]
      children) {marks : String} (hmarks : marks ≠ "")
    (hsources : Spaced (sourceNodes ++ [leaf "taint-marks" marks]) sourcesChildren)
    (hlegible : ∀ cur ∈ sourceNodes, SourcesLegible offsetFile (sourcesChild getString cur))
    (hprop : Spaced (flagNodes prop) propChildren) :
    Legible getString offsetFile (.element "dytan-config" [] children) := by
  have hmarksChild : SourcesLegible offsetFile (sourcesChild getString (leaf "taint-marks" marks)) := by
    show getString [.text marks] ≠ none
    rw [hget marks hmarks]
    exact Option.some_ne_none marks
  have hsourcesLegible : ∀ cur ∈ sourcesChildren,
      SourcesLegible offsetFile (sourcesChild getString cur) := by
    intro cur hcur
    rcases hsources.mem hcur with hmem | hother
    · rcases List.mem_append.mp hmem with hmem | hmem
      · exact hlegible cur hmem
      · rw [List.mem_singleton.mp hmem]
        exact hmarksChild
    · rw [sourcesChild_other hother]
      trivial
  have hflags : ∀ cur ∈ propChildren, cur.name ∈ ["dataflow", "controlflow", "tracing"] →
      getString cur.children ≠ none := by
    intro cur hcur hname
    rcases hprop.mem hcur with hmem | hother
    · have hflag : ∃ name b, cur = leaf name (flagText b) := by
        rcases List.mem_cons.mp hmem with rfl | hmem
        · exact ⟨_, _, rfl⟩
        rcases List.mem_cons.mp hmem with rfl | hmem
        · exact ⟨_, _, rfl⟩
        · exact ⟨_, _, List.mem_singleton.mp hmem⟩
      obtain ⟨name, b, rfl⟩ := hflag
      show getString [.text (flagText b)] ≠ none
      rw [hget _ (flagText_ne b)]
      exact Option.some_ne_none _
    · cases cur with
      | element n props children => exact nomatch hother
      | text content => exact absurd hname (show "text" ∉ _ by decide)
      | comment content => exact absurd hname (show "comment" ∉ _ by decide)
  intro sub hsub
  rcases hchildren.mem hsub with hmem | hother
  · rcases List.mem_cons.mp hmem with rfl | hmem
    · exact ⟨fun _ => hsourcesLegible,
        fun hname => absurd hname (show "sources" ≠ "propagation" by decide)⟩
    · rw [List.mem_singleton.mp hmem]
      exact ⟨fun hname => absurd hname (show "propagation" ≠ "sources" by decide), fun _ => hflags⟩
  · cases sub with
    | element n props children => exact nomatch hother
    | text content =>
        exact ⟨fun hname => absurd hname (show "text" ≠ "sources" by decide),
          fun hname => absurd hname (show "text" ≠ "propagation" by decide)⟩
    | comment content =>
        exact ⟨fun hname => absurd hname (show "comment" ≠ "sources" by decide),
          fun hname => absurd hname (show "comment" ≠ "propagation" by decide)⟩

/-- **A document that is written for a configuration**, with texts and comments
    anywhere between its elements, gives that configuration: no text in it is
    empty, no detail is called granularity (`Writable`), and the rules file, and
    the offset file where a source needs it, are terminated. -/
theorem parseConfig_written (hget : ReadsText getString) (hrules : FileOk rulesFile)
    (hconf : Writable offsetFile conf) {root : Node} (hroot : IsDocument conf prop root) :
    ∃ s, parseConfig ws getString rulesFile offsetFile (some (some root)) .initial = some (0, s)
      ∧ s.conf = conf ∧ s.prop = some prop := by
  obtain ⟨children, sourcesChildren, propChildren, sourceNodes, rfl, hchildren, hsources, hnodes,
    hprop⟩ := hroot
  obtain ⟨hread, hmarks, hlegible⟩ := sourceNodes_read hget hnodes hconf.sources
  have hlast : sourcesChild getString (leaf "taint-marks" conf.numMarkings)
      = .taintMarks (some conf.numMarkings) :=
    congrArg SourcesChild.taintMarks (hget _ hconf.marks)
  have hname : configRoot (some (some (.element "dytan-config" [] children)))
      = some (.element "dytan-config" [] children) := rfl
  have hall : sourcesNodes getString children = sourcesChildren.map (sourcesChild getString) := by
    rw [sourcesNodes, hchildren.filter_name (by decide)]
    exact List.append_nil _
  have hconfEq : (⟨taintSources (sourcesNodes getString children),
      taintMarks (sourcesNodes getString children)⟩ : Configuration) = conf := by
    rw [hall, taintSources, taintMarks, hsources.filterMap_map (fun _ => sourcesChild_other) rfl,
      hsources.filterMap_map (fun _ => sourcesChild_other) rfl, List.map_append, List.map_singleton,
      List.filterMap_append, List.filterMap_append, hread, hmarks, hlast]
    show Configuration.mk (conf.sources ++ []) conf.numMarkings = conf
    rw [List.append_nil]
  have hpropEq : lastPropagation getString children = some prop := by
    rw [lastPropagation, hchildren.filter_name (by decide)]
    exact congrArg some (propagationOf_written hget hprop "propagation" [])
  have hlegibleRoot := legible_written hget hchildren hconf.marks hsources hlegible hprop
  have hsome := (parseConfig_isSome ws getString rulesFile offsetFile
    (some (some (.element "dytan-config" [] children)))).mpr
      ⟨hrules, fun root heq => Option.some.inj (hname.symm.trans heq) ▸ hlegibleRoot⟩
  obtain ⟨⟨result, s⟩, hs⟩ := Option.isSome_iff_exists.mp hsome
  rcases parseConfig_result hs with ⟨hnone, -⟩ | ⟨root, heq, rfl, hc, hp⟩
  · exact absurd (hname.symm.trans hnone) (Option.some_ne_none _)
  · cases Option.some.inj (hname.symm.trans heq)
    exact ⟨s, hs, hc.trans hconfEq, hp.trans hpropEq⟩

/-- A path source with one file, and 32 marks. -/
def squid : Configuration := ⟨[⟨"path", "PerRead", [⟨"file", "squid.conf"⟩]⟩], "32"⟩

def squidSource : Node :=
  .element "source" [("type", "path")]
    [leaf "file" "squid.conf", .text "\n", leaf "granularity" "PerRead"]

/-- A document for it, with a comment in it. -/
def squidDocument : Node :=
  .element "dytan-config" []
    [.text "\n",
      .element "sources" [] [.comment "source", squidSource, leaf "taint-marks" "32"],
      .element "propagation" []
        [leaf "dataflow" "true", .text "\n", leaf "controlflow" "false", leaf "tracing" "false"]]

/-- The first text of a list. -/
def firstText : List Node → Option String
  | .text content :: _ => some content
  | _ => none

theorem parseConfig_written_squid :
    ∃ s, parseConfig .w64 firstText none none (some (some squidDocument)) .initial = some (0, s)
      ∧ s.conf = squid ∧ s.prop = some ⟨true, false, false⟩ := by
  have hget : ReadsText firstText := fun _ _ => rfl
  have hfile : FileOk none := nofun
  have hdoc : IsDocument squid ⟨true, false, false⟩ squidDocument :=
    ⟨_, _, _, [squidSource], rfl, rfl, rfl, .cons ⟨_, rfl, rfl⟩ .nil, rfl⟩
  refine parseConfig_written hget hfile ⟨by decide, fun src hsrc => ?_⟩ hdoc
  rw [List.mem_singleton.mp hsrc]
  refine ⟨by decide, fun _ => hfile, fun d hd => ?_⟩
  rw [List.mem_singleton.mp hd]
  exact ⟨by decide, by decide⟩

end DytanConfigDocument
