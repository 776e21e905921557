import Mathlib.Algebra.Group.Nat.Even
import Dytan.FrameworkOptionsProofs
import Dytan.ConfigFilesProofs

/-! # From the configuration to the sources

    `parseSources` puts the text of every child element of a source into one
    vector, whatever the element's name; `set_framework_options` takes the
    vector apart by position.

    The loop over the sources can end the tool (`exit`, `abort`, an exception of
    `convertTo`) or read outside of the vector (`Stop`).  The marks are set
    before the vector is read, and in the same way for every source. -/

namespace DytanSourceSetup

open DytanRegister DytanFrameworkOptions DytanConfigFiles Decimal Runs

variable {ws : WordSize}

/-- An entry of `details`.  The code keeps its text only; the name of the
    element is here to say where the text comes from. -/
structure Detail where
  element : String
  text : String
deriving DecidableEq, Repr

/-- `source`. -/
structure TaintSource where
  type : String
  granularity : String
  details : List Detail
deriving DecidableEq, Repr

/-- `config`. -/
structure Configuration where
  sources : List TaintSource
  numMarkings : String
deriving DecidableEq, Repr

/-- A new `config`. -/
def Configuration.empty : Configuration := ⟨[], ""⟩

/-- What the code has of it. -/
def TaintSource.toSource (src : TaintSource) : Source where
  type := src.type
  granularity := src.granularity
  details := src.details.map Detail.text

def Configuration.toConfig (conf : Configuration) : Config where
  sources := conf.sources.map TaintSource.toSource
  numMarkings := conf.numMarkings

/-- A child of a `source` element: an element, with what `xmlNodeListGetString`
    gives for it, or another node. -/
inductive SourceChild where
  | element (name : String) (text : Option String)
  | other
deriving DecidableEq, Repr

/-- A child of a `sources` element. -/
inductive SourcesChild where
  | source (type : Option String) (children : List SourceChild)
  | taintMarks (text : Option String)
  | other
deriving DecidableEq, Repr

/-- A granularity per offset has the ranges read. -/
def readRanges (ws : WordSize) (offsetFile : Option (List Byte)) (granularity : String)
    (datFile : Datfile) : Option Datfile :=
  if granularity = "PerOffset" then parseDatFiles ws offsetFile datFile else some datFile

/-- One turn of the inner loop.  A `string` cannot be made of a null pointer. -/
def readChild (ws : WordSize) (offsetFile : Option (List Byte)) (child : SourceChild)
    (s : TaintSource × Datfile) : Option (TaintSource × Datfile) :=
  match child with
  | .other => some s
  | .element _ none => none
  | .element name (some text) =>
      if name = "granularity" then do
        let datFile ← readRanges ws offsetFile text s.2
        some ({ s.1 with granularity := text }, datFile)
      else some ({ s.1 with details := s.1.details ++ [⟨name, text⟩] }, s.2)

/-- One turn of the outer loop. -/
def readSources (ws : WordSize) (offsetFile : Option (List Byte)) (child : SourcesChild)
    (s : Configuration × Datfile) : Option (Configuration × Datfile) :=
  match child with
  | .other => some s
  | .taintMarks none => none
  | .taintMarks (some text) => some ({ s.1 with numMarkings := text }, s.2)
  | .source none _ => some ({ s.1 with sources := s.1.sources ++ [⟨"", "", []⟩] }, s.2)
  | .source (some type) children => do
      let (src, datFile) ← runs (readChild ws offsetFile) children (⟨type, "", []⟩, s.2)
      some ({ s.1 with sources := s.1.sources ++ [src] }, datFile)

/-- `parseSources`, on the children of the `sources` elements. -/
def parseSources (ws : WordSize) (offsetFile : Option (List Byte)) :
    List SourcesChild → Configuration × Datfile → Option (Configuration × Datfile) :=
  runs (readSources ws offsetFile)

/-! ### What it reads -/

/-- The child as an entry of `details`. -/
def SourceChild.detail : SourceChild → Option Detail
  | .element name (some text) => if name = "granularity" then none else some ⟨name, text⟩
  | _ => none

def SourceChild.granularity : SourceChild → Option String
  | .element name (some text) => if name = "granularity" then some text else none
  | _ => none

/-- The source of an element; without a type its children are not read. -/
def sourceOf (type : Option String) (children : List SourceChild) : TaintSource :=
  match type with
  | none => ⟨"", "", []⟩
  | some type =>
      ⟨type, (children.filterMap SourceChild.granularity).getLast?.getD "",
        children.filterMap SourceChild.detail⟩

def SourcesChild.taintSource : SourcesChild → Option TaintSource
  | .source type children => some (sourceOf type children)
  | _ => none

def SourcesChild.marks : SourcesChild → Option String
  | .taintMarks text => text
  | _ => none

/-- The sources of a list of elements. -/
def taintSources (nodes : List SourcesChild) : List TaintSource :=
  nodes.filterMap SourcesChild.taintSource

/-- The last number of marks. -/
def taintMarks (nodes : List SourcesChild) : String :=
  (nodes.filterMap SourcesChild.marks).getLast?.getD ""

theorem getLast?_cons_getD {α : Type*} (x y : α) (xs : List α) :
    (x :: xs).getLast?.getD y = xs.getLast?.getD x := by
  rw [List.getLast?_cons]
  rfl

theorem readChild_runs {offsetFile : Option (List Byte)} {children : List SourceChild}
    {src src' : TaintSource} {d d' : Datfile}
    (h : runs (readChild ws offsetFile) children (src, d) = some (src', d')) :
    src' = ⟨src.type, (children.filterMap SourceChild.granularity).getLast?.getD src.granularity,
      src.details ++ children.filterMap SourceChild.detail⟩ := by
  induction children generalizing src d with
  | nil =>
      cases h
      rw [List.filterMap_nil, List.filterMap_nil, List.append_nil]
      rfl
  | cons child rest ih =>
      rw [runs_cons] at h
      obtain ⟨⟨src₁, d₁⟩, hstep, hrest⟩ := Option.bind_eq_some_iff.mp h
      have hsrc := ih hrest
      cases child with
      | other =>
          cases hstep
          exact hsrc
      | element name text =>
          cases text with
          | none => exact nomatch hstep
          | some text =>
              rw [readChild] at hstep
              -- the last granularity counts, the other elements are details
              by_cases hname : name = "granularity"
              · rw [if_pos hname] at hstep
                obtain ⟨d₂, -, hstep⟩ := Option.bind_eq_some_iff.mp hstep
                cases hstep
                have hgranularity : (SourceChild.element name (some text)).granularity = some text :=
                  if_pos hname
                have hdetail : (SourceChild.element name (some text)).detail = none := if_pos hname
                rw [hsrc, List.filterMap_cons_some hgranularity, getLast?_cons_getD,
                  List.filterMap_cons_none hdetail]
              · rw [if_neg hname] at hstep
                cases hstep
                have hgranularity : (SourceChild.element name (some text)).granularity = none :=
                  if_neg hname
                have hdetail : (SourceChild.element name (some text)).detail = some ⟨name, text⟩ :=
                  if_neg hname
                rw [hsrc, List.filterMap_cons_none hgranularity, List.filterMap_cons_some hdetail,
                  List.append_assoc]
                rfl

/-- **A configuration has the sources and the marks of its elements.** -/
theorem parseSources_eq {offsetFile : Option (List Byte)} {nodes : List SourcesChild}
    {conf : Configuration} {d d' : Datfile}
    (h : parseSources ws offsetFile nodes (.empty, d) = some (conf, d')) :
    conf = ⟨taintSources nodes, taintMarks nodes⟩ := by
  -- from a configuration read so far
  have hruns : ∀ (nodes : List SourcesChild) {conf₀ : Configuration} {d₀ : Datfile},
      runs (readSources ws offsetFile) nodes (conf₀, d₀) = some (conf, d') →
      conf = ⟨conf₀.sources ++ taintSources nodes,
        (nodes.filterMap SourcesChild.marks).getLast?.getD conf₀.numMarkings⟩ := by
    intro nodes
    induction nodes with
    | nil =>
        intro conf₀ d₀ h₀
        cases h₀
        rw [taintSources, List.filterMap_nil, List.filterMap_nil, List.append_nil]
        rfl
    | cons node rest ih =>
        intro conf₀ d₀ h₀
        rw [runs_cons] at h₀
        obtain ⟨⟨conf₁, d₁⟩, hstep, hrest⟩ := Option.bind_eq_some_iff.mp h₀
        have hconf := ih hrest
        cases node with
        | other =>
            cases hstep
            exact hconf
        | taintMarks text =>
            cases text with
            | none => exact nomatch hstep
            | some text =>
                cases hstep
                have hmarks : (SourcesChild.taintMarks (some text)).marks = some text := rfl
                rw [hconf, List.filterMap_cons_some hmarks, getLast?_cons_getD]
                rfl
        | source type children =>
            have hsources : taintSources (.source type children :: rest)
                = sourceOf type children :: taintSources rest := rfl
            rw [hsources, List.append_cons]
            cases type with
            | none =>
                cases hstep
                exact hconf
            | some type =>
                obtain ⟨⟨src, d₂⟩, hchildren, hstep⟩ := Option.bind_eq_some_iff.mp hstep
                cases hstep
                rw [hconf, readChild_runs hchildren]
                rfl
  exact hruns nodes h

/-! ## `set_framework_options` -/

/-- How the loop stops before its end: the tool ends, or a vector is read
    outside of its range. -/
inductive Stop where
  | ended | outOfRange
deriving DecidableEq, Repr

/-- `PathTaintSource`, with what is added to it. -/
structure PathSource where
  observeEverything : Bool
  paths : List Detail
  granularity : TaintRange
deriving DecidableEq, Repr

/-- `NetworkTaintSource`, with the hosts and ports added to it. -/
structure NetworkSource where
  observeEverything : Bool
  addresses : List (Detail × Detail)
  granularity : TaintRange
deriving DecidableEq, Repr

/-- The options, and the sources installed. -/
structure Setup where
  options : Options
  pathSources : List PathSource
  networkSources : List NetworkSource
deriving DecidableEq, Repr

def Setup.initial : Setup := ⟨.initial, [], []⟩

def TaintSource.taintRange (src : TaintSource) : TaintRange := src.toSource.taintRange

/-- `details[0]`. -/
def TaintSource.first (src : TaintSource) : Except Stop Detail :=
  match src.details with
  | [] => .error .outOfRange
  | first :: _ => .ok first

/-- The branch of a path source. -/
def installPath (src : TaintSource) : Except Stop PathSource := do
  let first ← src.first
  if first.text = "*" then .ok ⟨true, [], src.taintRange⟩
  else .ok ⟨false, src.details, src.taintRange⟩

/-- The loop over `details[i]` and `details[i + 1]`; `addNetworkSource` aborts
    per offset. -/
def addNetworkSources (granularity : TaintRange) :
    List Detail → Except Stop (List (Detail × Detail))
  | [] => .ok []
  | [_] => .error .outOfRange
  | host :: port :: rest =>
      if granularity = .perOffset then .error .ended
      else (addNetworkSources granularity rest).map ((host, port) :: ·)

/-- The branch of a network source; `addObserverForAll` aborts per offset. -/
def installNetwork (src : TaintSource) : Except Stop NetworkSource := do
  let first ← src.first
  if first.text = "*" then
    if src.taintRange = .perOffset then .error .ended
    else .ok ⟨true, [], src.taintRange⟩
  else
    let addresses ← addNetworkSources src.taintRange src.details
    .ok ⟨false, addresses, src.taintRange⟩

/-- One turn of the loop. -/
def installSource (numMarkings : String) (s : Setup) (src : TaintSource) : Except Stop Setup := do
  let options ← (setNumMarkings numMarkings s.options).elim (.error .ended) .ok
  if src.type = "path" then
    let p ← installPath src
    .ok { s with options := options, pathSources := s.pathSources ++ [p] }
  else if src.type = "network" then
    let n ← installNetwork src
    .ok { s with options := options, networkSources := s.networkSources ++ [n] }
  else .ok { s with options := options }

/-- `set_framework_options`, with all that it installs. -/
def installSources (conf : Configuration) : Except Stop Setup :=
  conf.sources.foldlM (installSource conf.numMarkings) .initial

/-- The elements are a host, its port, the next host, and so on. -/
def Alternates : List Detail → Prop
  | [] => True
  | [_] => False
  | host :: port :: rest => host.element = "host" ∧ port.element = "port" ∧ Alternates rest

variable {details : List Detail} {granularity : TaintRange} {src : TaintSource}

theorem addNetworkSources_perOffset (details : List Detail) :
    addNetworkSources .perOffset details
      = if details = [] then .ok [] else if details.length = 1 then .error .outOfRange
        else .error .ended := by
  match details with
  | [] => rfl
  | [_] => rfl
  | host :: port :: rest => exact if_pos rfl

/-- The vector has to be of even length; its pairs are hosts and ports exactly
    if its elements alternate. -/
theorem addNetworkSources_pairs (hg : granularity ≠ .perOffset) : ∀ details : List Detail,
    (¬ Even details.length ∧ addNetworkSources granularity details = .error .outOfRange)
      ∨ (Even details.length ∧ ∃ addresses, addNetworkSources granularity details = .ok addresses
        ∧ (∀ a ∈ addresses, a.1 ∈ details ∧ a.2 ∈ details)
        ∧ (Alternates details ↔ ∀ a ∈ addresses, a.1.element = "host" ∧ a.2.element = "port"))
  | [] => Or.inr ⟨Even.zero, [], rfl, nofun, iff_of_true trivial nofun⟩
  | [_] => Or.inl ⟨Nat.not_even_one, rfl⟩
  | host :: port :: rest => by
      have heven : Even (host :: port :: rest).length ↔ Even rest.length := by
        rw [List.length_cons, List.length_cons, Nat.even_add_one, Nat.even_add_one, not_not]
      rw [heven, addNetworkSources, if_neg hg]
      rcases addNetworkSources_pairs hg rest with ⟨hodd, hrun⟩ | ⟨hrest, addresses, hrun, hmem, hiff⟩
      · rw [hrun]
        exact Or.inl ⟨hodd, rfl⟩
      · rw [hrun]
        refine Or.inr ⟨hrest, (host, port) :: addresses, rfl, ?_, ?_⟩
        · refine List.forall_mem_cons.mpr ⟨⟨by simp, by simp⟩, fun a ha => ?_⟩
          exact ⟨List.mem_cons_of_mem _ (List.mem_cons_of_mem _ (hmem a ha).1),
            List.mem_cons_of_mem _ (List.mem_cons_of_mem _ (hmem a ha).2)⟩
        · rw [List.forall_mem_cons, Alternates, hiff, and_assoc]

/-! ### One source -/

/-- What the source reads of its vector is there. -/
def Readable (src : TaintSource) : Prop :=
  (src.type = "path" → src.details ≠ [])
    ∧ (src.type = "network" → ∃ first rest, src.details = first :: rest
      ∧ (first.text = "*" ∨ Even src.details.length ∨ (src.taintRange = .perOffset ∧ rest ≠ [])))

/-- A network source per offset ends the tool. -/
def Refused (src : TaintSource) : Prop := src.type = "network" ∧ src.taintRange = .perOffset

/-- The elements of a network source that does not take everything alternate. -/
def HostsAndPorts (src : TaintSource) : Prop :=
  src.type = "network" → ∀ first ∈ src.details.head?, first.text ≠ "*" → Alternates src.details

/-- The hosts and ports are taken from the `host` and `port` elements of the
    source. -/
def FromHostAndPort (src : TaintSource) (n : NetworkSource) : Prop :=
  ∀ a ∈ n.addresses, (a.1 ∈ src.details ∧ a.2 ∈ src.details)
    ∧ a.1.element = "host" ∧ a.2.element = "port"

theorem installPath_spec (src : TaintSource) :
    (src.details = [] ∧ installPath src = .error .outOfRange)
      ∨ (src.details ≠ [] ∧ ∃ p, installPath src = .ok p) := by
  rw [installPath, TaintSource.first]
  cases src.details with
  | nil => exact Or.inl ⟨rfl, rfl⟩
  | cons first rest =>
      refine Or.inr ⟨List.cons_ne_nil _ _, ?_⟩
      by_cases hall : first.text = "*"
      · exact ⟨_, if_pos hall⟩
      · exact ⟨_, if_neg hall⟩

theorem readable_iff_network {first : Detail} {rest : List Detail} (htype : src.type = "network")
    (hdetails : src.details = first :: rest) : Readable src ↔ first.text = "*"
      ∨ Even src.details.length ∨ (src.taintRange = .perOffset ∧ rest ≠ []) := by
  constructor
  · intro h
    obtain ⟨first', rest', heq, hcases⟩ := h.2 htype
    obtain ⟨rfl, rfl⟩ := List.cons.inj (hdetails.symm.trans heq)
    exact hcases
  · intro h
    refine ⟨fun hpath => ?_, fun _ => ⟨first, rest, hdetails, h⟩⟩
    rw [hdetails]
    exact List.cons_ne_nil _ _

theorem installNetwork_spec (htype : src.type = "network") :
    (¬ Readable src ∧ installNetwork src = .error .outOfRange)
      ∨ (Readable src ∧ Refused src ∧ installNetwork src = .error .ended)
      ∨ (Readable src ∧ ¬ Refused src ∧ ∃ n, installNetwork src = .ok n
        ∧ (HostsAndPorts src ↔ FromHostAndPort src n)) := by
  cases hdetails : src.details with
  | nil =>
      refine Or.inl ⟨fun h => ?_, ?_⟩
      · obtain ⟨first, rest, heq, -⟩ := h.2 htype
        exact nomatch hdetails.symm.trans heq
      · rw [installNetwork, TaintSource.first, hdetails]
        rfl
  | cons first rest =>
      have hreadable := readable_iff_network htype hdetails
      have hrefused : Refused src ↔ src.taintRange = .perOffset := and_iff_right htype
      have hfirst : src.first = .ok first := by rw [TaintSource.first, hdetails]
      rw [hreadable, hrefused]
      by_cases hall : first.text = "*"
      -- all hosts and ports, which a source per offset may not ask for
      · have hrun : installNetwork src = if src.taintRange = .perOffset then .error .ended
            else .ok ⟨true, [], src.taintRange⟩ := by
          rw [installNetwork, hfirst]
          exact if_pos hall
        by_cases hg : src.taintRange = .perOffset
        · exact Or.inr (Or.inl ⟨Or.inl hall, hg, hrun.trans (if_pos hg)⟩)
        · refine Or.inr (Or.inr ⟨Or.inl hall, hg, _, hrun.trans (if_neg hg), ?_⟩)
          refine iff_of_true (fun _ first' hhead hne => absurd ?_ hne) nofun
          rw [hdetails] at hhead
          cases hhead
          exact hall
      · have hrun : installNetwork src = (addNetworkSources src.taintRange src.details).map
            fun addresses => ⟨false, addresses, src.taintRange⟩ := by
          rw [installNetwork, hfirst]
          refine (if_neg hall).trans ?_
          cases addNetworkSources src.taintRange src.details <;> rfl
        by_cases hg : src.taintRange = .perOffset
        -- per offset the first pair decides: it is read, and the tool ends
        · have hlen : Even src.details.length → rest ≠ [] := by
            rintro heven rfl
            rw [hdetails] at heven
            exact Nat.not_even_one heven
          rw [hrun, hg, addNetworkSources_perOffset, hdetails, if_neg (List.cons_ne_nil _ _)]
          rw [hdetails] at hlen
          by_cases hrest : rest = []
          · refine Or.inl ⟨?_, ?_⟩
            · rintro (h | h | ⟨-, h⟩)
              · exact hall h
              · exact hlen h hrest
              · exact h hrest
            · rw [hrest]
              rfl
          · refine Or.inr (Or.inl ⟨Or.inr (Or.inr ⟨rfl, hrest⟩), rfl, ?_⟩)
            rw [if_neg]
            · rfl
            · rw [List.length_cons]
              exact fun h => hrest (List.eq_nil_of_length_eq_zero (Nat.succ.inj h))
        -- else all pairs are read, so none may be cut in two
        · rcases addNetworkSources_pairs hg src.details with
            ⟨hodd, hpairs⟩ | ⟨heven, addresses, hpairs, hmem, hiff⟩
          · rw [hrun, hpairs]
            refine Or.inl ⟨?_, rfl⟩
            rintro (h | h | ⟨h, -⟩)
            · exact hall h
            · exact hodd h
            · exact hg h
          · rw [hrun, hpairs]
            refine Or.inr (Or.inr ⟨Or.inr (Or.inl heven), hg, _, rfl, ?_⟩)
            have hsource : HostsAndPorts src ↔ Alternates src.details := by
              constructor
              · exact fun h => h htype first (by rw [hdetails]; rfl) hall
              · exact fun h _ _ _ _ => h
            rw [hsource, hiff]
            exact forall₂_congr fun a ha => (and_iff_right (hmem a ha)).symm

/-- A source and the network source installed for it. -/
def Installed (src : TaintSource) (n : NetworkSource) : Prop :=
  HostsAndPorts src ↔ FromHostAndPort src n

/-- The network sources among the sources. -/
def networks (sources : List TaintSource) : List TaintSource :=
  sources.filter fun src => src.type = "network"

/-- What sources that are set up add. -/
structure Adds (sources : List TaintSource) (s s' : Setup) : Prop where
  pathSources : s'.pathSources ≠ [] ↔ s.pathSources ≠ [] ∨ ∃ src ∈ sources, src.type = "path"
  networkSources : ∃ ns, s'.networkSources = s.networkSources ++ ns
    ∧ List.Forall₂ Installed (networks sources) ns

theorem networks_of_ne (h : src.type ≠ "network") : networks [src] = [] :=
  List.filter_cons_of_neg (by rw [decide_eq_true_eq]; exact h)

theorem networks_of_eq (h : src.type = "network") : networks [src] = [src] :=
  List.filter_cons_of_pos (by rw [decide_eq_true_eq]; exact h)

/-- A source that is no path source. -/
theorem adds_of_ne_path {s s' : Setup} {ns : List NetworkSource} (hpath : src.type ≠ "path")
    (hp : s'.pathSources = s.pathSources) (hn : s'.networkSources = s.networkSources ++ ns)
    (hall : List.Forall₂ Installed (networks [src]) ns) : Adds [src] s s' := by
  refine ⟨?_, ns, hn, hall⟩
  rw [hp]
  refine (or_iff_left ?_).symm
  rintro ⟨src', hmem, htype⟩
  rw [List.mem_singleton.mp hmem] at htype
  exact hpath htype

/-- One turn of the loop, where the number of marks is accepted. -/
theorem installSource_spec {numMarkings : String} {s : Setup} {o : Options}
    (ho : setNumMarkings numMarkings s.options = some o) (src : TaintSource) :
    (¬ Readable src ∧ installSource numMarkings s src = .error .outOfRange)
      ∨ (Readable src ∧ Refused src ∧ installSource numMarkings s src = .error .ended)
      ∨ (Readable src ∧ ¬ Refused src ∧ ∃ s', installSource numMarkings s src = .ok s'
        ∧ s'.options = o ∧ Adds [src] s s') := by
  by_cases hpath : src.type = "path"
  · have hnet : src.type ≠ "network" := by
      rw [hpath]
      decide
    have hreadable : Readable src ↔ src.details ≠ [] :=
      ⟨fun h => h.1 hpath, fun h => ⟨fun _ => h, fun hn => absurd hn hnet⟩⟩
    have hrun : installSource numMarkings s src = (installPath src).map fun p =>
        { s with options := o, pathSources := s.pathSources ++ [p] } := by
      rw [installSource, ho]
      refine (if_pos hpath).trans ?_
      cases installPath src <;> rfl
    rw [hreadable, hrun]
    rcases installPath_spec src with ⟨hnil, hinstall⟩ | ⟨hne, p, hinstall⟩
    · rw [hinstall]
      exact Or.inl ⟨fun h => h hnil, rfl⟩
    · rw [hinstall]
      refine Or.inr (Or.inr ⟨hne, fun h => hnet h.1, _, rfl, rfl, ⟨?_, [], ?_, ?_⟩⟩)
      · refine iff_of_true (List.append_ne_nil_of_right_ne_nil _ (List.cons_ne_nil _ _)) (Or.inr ?_)
        exact ⟨src, List.mem_cons_self, hpath⟩
      · exact (List.append_nil _).symm
      · rw [networks_of_ne hnet]
        exact .nil
  · by_cases hnet : src.type = "network"
    · have hrun : installSource numMarkings s src = (installNetwork src).map fun n =>
          { s with options := o, networkSources := s.networkSources ++ [n] } := by
        rw [installSource, ho]
        refine (if_neg hpath).trans ((if_pos hnet).trans ?_)
        cases installNetwork src <;> rfl
      rw [hrun]
      rcases installNetwork_spec hnet with ⟨hnot, hinstall⟩ | ⟨hread, href, hinstall⟩ |
        ⟨hread, href, n, hinstall, hiff⟩
      · rw [hinstall]
        exact Or.inl ⟨hnot, rfl⟩
      · rw [hinstall]
        exact Or.inr (Or.inl ⟨hread, href, rfl⟩)
      · rw [hinstall]
        refine Or.inr (Or.inr ⟨hread, href, _, rfl, rfl, adds_of_ne_path hpath rfl rfl ?_⟩)
        rw [networks_of_eq hnet]
        exact .cons hiff .nil
    · have hrun : installSource numMarkings s src = .ok { s with options := o } := by
        rw [installSource, ho]
        exact (if_neg hpath).trans (if_neg hnet)
      refine Or.inr (Or.inr ⟨⟨fun h => absurd h hpath, fun h => absurd h hnet⟩, fun h => hnet h.1,
        _, hrun, rfl, adds_of_ne_path hpath rfl (List.append_nil _).symm ?_⟩)
      rw [networks_of_ne hnet]
      exact .nil

theorem Adds.trans {src : TaintSource} {rest : List TaintSource} {s s₁ s' : Setup}
    (h₁ : Adds [src] s s₁) (h : Adds rest s₁ s') : Adds (src :: rest) s s' where
  pathSources := by
    rw [h.pathSources, h₁.pathSources, or_assoc, List.exists_mem_cons_iff, List.exists_mem_cons_iff]
    simp
  networkSources := by
    obtain ⟨ns₁, heq₁, hall₁⟩ := h₁.networkSources
    obtain ⟨ns, heq, hall⟩ := h.networkSources
    refine ⟨ns₁ ++ ns, by rw [heq, heq₁, List.append_assoc], ?_⟩
    have hsplit : networks (src :: rest) = networks [src] ++ networks rest :=
      List.filter_append [src] rest
    rw [hsplit]
    exact List.rel_append hall₁ hall

/-- The loop comes to a network source per offset. -/
def ReachesRefused : List TaintSource → Prop
  | [] => False
  | src :: rest => Readable src ∧ (Refused src ∨ ReachesRefused rest)

/-- **The loop**, where the number of marks is accepted again and again. -/
theorem installSource_foldlM {numMarkings : String} {o : Options}
    (hagain : setNumMarkings numMarkings o = some o) (sources : List TaintSource) {s : Setup}
    (ho : setNumMarkings numMarkings s.options = some o) :
    (sources.foldlM (installSource numMarkings) s = .error .outOfRange
        ∧ ¬ ReachesRefused sources ∧ ∃ src ∈ sources, ¬ Readable src)
      ∨ (sources.foldlM (installSource numMarkings) s = .error .ended ∧ ReachesRefused sources)
      ∨ ∃ s', sources.foldlM (installSource numMarkings) s = .ok s' ∧ ¬ ReachesRefused sources
        ∧ (∀ src ∈ sources, Readable src) ∧ (sources ≠ [] → s'.options = o) ∧ Adds sources s s' := by
  induction sources generalizing s with
  | nil =>
      refine Or.inr (Or.inr ⟨s, rfl, id, nofun, fun h => absurd rfl h, ?_, [], ?_, .nil⟩)
      · exact (or_iff_left fun ⟨_, h, _⟩ => nomatch h).symm
      · exact (List.append_nil _).symm
  | cons src rest ih =>
      rw [List.foldlM_cons]
      rcases installSource_spec ho src with ⟨hnot, hrun⟩ | ⟨hread, href, hrun⟩ |
        ⟨hread, href, s₁, hrun, ho₁, hadds⟩
      · rw [hrun]
        exact Or.inl ⟨rfl, fun h => hnot h.1, src, List.mem_cons_self, hnot⟩
      · rw [hrun]
        exact Or.inr (Or.inl ⟨rfl, hread, Or.inl href⟩)
      · have hreach : ReachesRefused (src :: rest) ↔ ReachesRefused rest :=
          (and_iff_right hread).trans (or_iff_right href)
        rw [hrun, hreach]
        rcases ih (s := s₁) (ho₁ ▸ hagain) with ⟨hrest, hno, bad, hmem, hbad⟩ | ⟨hrest, hyes⟩ |
          ⟨s', hrest, hno, hall, ho', hadds'⟩
        · exact Or.inl ⟨hrest, hno, bad, List.mem_cons_of_mem _ hmem, hbad⟩
        · exact Or.inr (Or.inl ⟨hrest, hyes⟩)
        · refine Or.inr (Or.inr ⟨s', hrest, hno, List.forall_mem_cons.mpr ⟨hread, hall⟩,
            fun _ => ?_, hadds.trans hadds'⟩)
          -- the options are those of the last turn
          by_cases hnil : rest = []
          · rw [hnil] at hrest
            cases hrest
            exact ho₁
          · exact ho' hnil

/-- A number of marks that ends the tool. -/
def MarksRefused (numMarkings : String) : Prop :=
  numMarkings ≠ "" ∧ numMarkings ≠ "1"
    ∧ ∀ num, convertTo numMarkings = some num → num < 1 ∨ 4096 < num

/-- It is refused by the first source or by none, each source sets the same, and
    there is a generator unless the number is missing. -/
theorem setNumMarkings_initial (numMarkings : String) :
    (MarksRefused numMarkings ∧ setNumMarkings numMarkings .initial = none)
      ∨ (¬ MarksRefused numMarkings ∧ ∃ o, setNumMarkings numMarkings .initial = some o
        ∧ setNumMarkings numMarkings o = some o
        ∧ (o.taintGen.isSome = true ↔ numMarkings ≠ "")) := by
  by_cases hone : numMarkings = "1"
  · have hrun : ∀ o : Options, setNumMarkings numMarkings o
        = some { o with taintGen := some (.constantTaintGenerator 5) } := fun o => if_pos hone
    refine Or.inr ⟨fun h => h.2.1 hone, _, hrun _, hrun _, iff_of_true rfl ?_⟩
    rw [hone]
    decide
  · by_cases hempty : numMarkings = ""
    · have hrun : ∀ o : Options, setNumMarkings numMarkings o = some o := fun o =>
        (if_neg hone).trans (if_neg fun h => h hempty)
      exact Or.inr ⟨fun h => h.1 hempty, _, hrun _, hrun _,
        iff_of_false Bool.false_ne_true fun h => h hempty⟩
    · have hrun : ∀ o : Options, setNumMarkings numMarkings o
          = (convertTo numMarkings).bind fun num =>
            if num < 1 ∨ num > o.numberOfTaintMarks then none
            else some ⟨num, some (.taintGenerator 1 num)⟩ := fun o =>
        (if_neg hone).trans (if_pos hempty)
      rw [hrun]
      cases hnum : convertTo numMarkings with
      | none => exact Or.inl ⟨⟨hempty, hone, fun num h => nomatch hnum.symm.trans h⟩, rfl⟩
      | some num =>
          rw [Option.bind_some]
          by_cases hrange : num < 1 ∨ num > Options.initial.numberOfTaintMarks
          · refine Or.inl ⟨⟨hempty, hone, fun n hn => ?_⟩, if_pos hrange⟩
            cases hnum.symm.trans hn
            exact hrange
          · refine Or.inr ⟨fun h => hrange (h.2.2 num hnum), _, if_neg hrange, ?_,
              iff_of_true rfl hempty⟩
            rw [hrun, hnum, Option.bind_some, if_neg]
            show ¬ (num < 1 ∨ num > num)
            omega

/-! ### When the sources are set up right -/

/-- The tool ends; or the loop completes, every network source has its hosts and
    ports from its `host` and `port` elements, and the callbacks of what is
    installed have a generator. -/
def SetUpRight (sources : List TaintSource) : Except Stop Setup → Prop
  | .error .ended => True
  | .error .outOfRange => False
  | .ok s => List.Forall₂ FromHostAndPort (networks sources) s.networkSources
      ∧ (s.pathSources ≠ [] ∨ s.networkSources ≠ [] → s.options.taintGen.isSome = true)

/-- The condition on the elements. -/
def SetsUp (sources : List TaintSource) (numMarkings : String) : Prop :=
  (sources ≠ [] ∧ MarksRefused numMarkings) ∨ ReachesRefused sources
    ∨ ((∀ src ∈ sources, Readable src ∧ HostsAndPorts src)
      ∧ (numMarkings ≠ "" ∨ ∀ src ∈ sources, src.type ≠ "path" ∧ src.type ≠ "network"))

theorem forall₂_installed {sources : List TaintSource} {ns : List NetworkSource}
    (h : List.Forall₂ Installed (networks sources) ns) :
    List.Forall₂ FromHostAndPort (networks sources) ns ↔ ∀ src ∈ sources, HostsAndPorts src := by
  have hnetworks : (∀ src ∈ networks sources, HostsAndPorts src) ↔ ∀ src ∈ sources, HostsAndPorts src := by
    constructor
    · exact fun h src hmem htype =>
        h src (List.mem_filter.mpr ⟨hmem, decide_eq_true htype⟩) htype
    · exact fun h src hmem => h src (List.mem_filter.mp hmem).1
  rw [← hnetworks]
  generalize networks sources = srcs at h ⊢
  induction h with
  | nil => exact iff_of_true .nil nofun
  | cons hinstalled _ ih =>
      rw [List.forall₂_cons, List.forall_mem_cons]
      exact and_congr hinstalled.symm ih

/-- A configuration that completes installs something exactly if it has a path
    or network source. -/
theorem installs_iff {sources : List TaintSource} {s : Setup} (h : Adds sources .initial s) :
    s.pathSources ≠ [] ∨ s.networkSources ≠ []
      ↔ ∃ src ∈ sources, src.type = "path" ∨ src.type = "network" := by
  obtain ⟨ns, heq, hall⟩ := h.networkSources
  have hnetwork : s.networkSources ≠ [] ↔ ∃ src ∈ sources, src.type = "network" := by
    rw [heq, show Setup.initial.networkSources = [] from rfl, List.nil_append,
      ← List.length_pos_iff, ← hall.length_eq, List.length_pos_iff, networks, Ne,
      List.filter_eq_nil_iff]
    simp only [decide_eq_true_eq]
    push Not
    rfl
  have hpath : s.pathSources ≠ [] ↔ ∃ src ∈ sources, src.type = "path" :=
    h.pathSources.trans (or_iff_right fun hne => hne rfl)
  rw [hpath, hnetwork]
  constructor
  · rintro (⟨src, hmem, htype⟩ | ⟨src, hmem, htype⟩)
    · exact ⟨src, hmem, Or.inl htype⟩
    · exact ⟨src, hmem, Or.inr htype⟩
  · rintro ⟨src, hmem, htype | htype⟩
    · exact Or.inl ⟨src, hmem, htype⟩
    · exact Or.inr ⟨src, hmem, htype⟩

theorem setUpRight_iff (conf : Configuration) :
    SetUpRight conf.sources (installSources conf) ↔ SetsUp conf.sources conf.numMarkings := by
  rcases setNumMarkings_initial conf.numMarkings with ⟨hrefused, hnone⟩ | ⟨haccepted, o, ho, hagain, hgen⟩
  · cases hsources : conf.sources with
    | nil =>
        rw [installSources, hsources]
        exact iff_of_true ⟨.nil, fun h => absurd rfl (h.resolve_left fun h => h rfl)⟩
          (Or.inr (Or.inr ⟨nofun, Or.inr nofun⟩))
    | cons src rest =>
        have hrun : installSources conf = .error .ended := by
          rw [installSources, hsources, List.foldlM_cons, installSource,
            show Setup.initial.options = .initial from rfl, hnone]
          rfl
        rw [hrun]
        exact iff_of_true trivial (Or.inl ⟨List.cons_ne_nil _ _, hrefused⟩)
  · rcases installSource_foldlM hagain conf.sources (s := .initial) ho with
      ⟨hrun, hno, src, hmem, hnot⟩ | ⟨hrun, hyes⟩ | ⟨s, hrun, hno, hall, hoptions, hadds⟩
    · rw [show installSources conf = .error .outOfRange from hrun]
      refine iff_of_false id ?_
      rintro (⟨-, h⟩ | h | ⟨h, -⟩)
      · exact haccepted h
      · exact hno h
      · exact hnot (h src hmem).1
    · rw [show installSources conf = .error .ended from hrun]
      exact iff_of_true trivial (Or.inr (Or.inl hyes))
    · rw [show installSources conf = .ok s from hrun]
      -- the loop is done: what it installed, and the generator
      obtain ⟨ns, heq, hpairs⟩ := hadds.networkSources
      have hhosts : List.Forall₂ FromHostAndPort (networks conf.sources) s.networkSources
          ↔ ∀ src ∈ conf.sources, HostsAndPorts src := by
        rw [heq]
        exact forall₂_installed hpairs
      have hgenerator : (s.pathSources ≠ [] ∨ s.networkSources ≠ [] → s.options.taintGen.isSome = true)
          ↔ (conf.numMarkings ≠ "" ∨ ∀ src ∈ conf.sources, src.type ≠ "path" ∧ src.type ≠ "network") := by
        rw [installs_iff hadds]
        by_cases hne : conf.sources = []
        · rw [hne]
          exact iff_of_true (fun ⟨_, h, _⟩ => nomatch h) (Or.inr nofun)
        · rw [hoptions hne, hgen]
          constructor
          · intro h
            by_cases hmarks : conf.numMarkings = ""
            · refine Or.inr fun src hmem => ⟨fun htype => ?_, fun htype => ?_⟩
              · exact h ⟨src, hmem, Or.inl htype⟩ hmarks
              · exact h ⟨src, hmem, Or.inr htype⟩ hmarks
            · exact Or.inl hmarks
          · rintro (h | h) ⟨src, hmem, htype⟩
            · exact h
            · exact absurd htype (not_or.mpr (h src hmem))
      constructor
      · rintro ⟨h, hg⟩
        exact Or.inr (Or.inr ⟨fun src hmem => ⟨hall src hmem, hhosts.mp h src hmem⟩, hgenerator.mp hg⟩)
      · rintro (⟨-, h⟩ | h | ⟨h, hg⟩)
        · exact absurd h haccepted
        · exact absurd h hno
        · exact ⟨hhosts.mpr fun src hmem => (h src hmem).2, hgenerator.mpr hg⟩

/-- **When `set_framework_options` is right**, for every configuration that
    `parseSources` reads. -/
theorem parseSources_setUpRight_iff {offsetFile : Option (List Byte)} {nodes : List SourcesChild}
    {conf : Configuration} {d d' : Datfile}
    (h : parseSources ws offsetFile nodes (.empty, d) = some (conf, d')) :
    SetUpRight (taintSources nodes) (installSources conf)
      ↔ SetsUp (taintSources nodes) (taintMarks nodes) := by
  rw [parseSources_eq h]
  exact setUpRight_iff ⟨taintSources nodes, taintMarks nodes⟩

/-- A path source with one file, and 32 marks. -/
def oneFile : List SourcesChild :=
  [.source (some "path") [.element "file" (some "a"), .element "granularity" (some "PerRead")],
    .taintMarks (some "32")]

theorem parseSources_setUpRight_iff_oneFile :
    SetUpRight (taintSources oneFile)
        (installSources ⟨[⟨"path", "PerRead", [⟨"file", "a"⟩]⟩], "32"⟩)
      ↔ SetsUp (taintSources oneFile) (taintMarks oneFile) := by
  have h : parseSources .w64 none oneFile (.empty, .initial)
      = some (⟨[⟨"path", "PerRead", [⟨"file", "a"⟩]⟩], "32"⟩, .initial) := rfl
  exact parseSources_setUpRight_iff h

/-- A source without details, one without marks, and one with the port before
    the host. -/
theorem setUp_wrong :
    (∃ conf, parseSources .w64 none [.source (some "path") [], .taintMarks (some "1")]
        (.empty, .initial) = some (conf, .initial)
      ∧ installSources conf = .error .outOfRange)
    ∧ (∃ conf s, parseSources .w64 none
        [.source (some "path") [.element "file" (some "a")]] (.empty, .initial)
          = some (conf, .initial)
      ∧ installSources conf = .ok s ∧ s.pathSources ≠ [] ∧ s.options.taintGen = none)
    ∧ ∃ conf s, parseSources .w64 none
        [.source (some "network") [.element "port" (some "80"), .element "host" (some "1.2.3.4")],
          .taintMarks (some "1")] (.empty, .initial) = some (conf, .initial)
      ∧ installSources conf = .ok s
      ∧ s.networkSources = [⟨false, [(⟨"port", "80"⟩, ⟨"host", "1.2.3.4"⟩)], .perRead⟩] :=
  ⟨⟨_, rfl, rfl⟩, ⟨_, _, rfl, rfl, List.cons_ne_nil _ _, rfl⟩, ⟨_, _, rfl, rfl, rfl⟩⟩

/-! ### Without the installed sources -/

theorem setUpSource_network_nil {src : Source} (hnet : src.type = "network")
    (hdetails : src.details = []) : setUpSource src = none := by
  have hpath : src.type ≠ "path" := by
    rw [hnet]
    decide
  rw [setUpSource, if_neg hpath, if_pos hnet, hdetails]

theorem setUpSource_network_cons {src : Source} (hnet : src.type = "network") {first : String}
    {rest : List String} (hdetails : src.details = first :: rest) :
    setUpSource src = if src.taintRange = .perOffset then none
      else if first ≠ "*" && src.details.length % 2 = 1 then none
      else some () := by
  have hpath : src.type ≠ "path" := by
    rw [hnet]
    decide
  rw [setUpSource, if_neg hpath, if_pos hnet, hdetails]

theorem setUpSource_eq_some (src : TaintSource) :
    setUpSource src.toSource = some () ↔ Readable src ∧ ¬ Refused src := by
  by_cases hpath : src.type = "path"
  · have hnet : src.type ≠ "network" := by
      rw [hpath]
      decide
    have hcond : Readable src ∧ ¬ Refused src ↔ src.details ≠ [] :=
      ⟨fun h => h.1.1 hpath, fun h => ⟨⟨fun _ => h, fun hn => absurd hn hnet⟩, fun hr => hnet hr.1⟩⟩
    rw [setUpSource, if_pos (show src.toSource.type = "path" from hpath), hcond]
    show (if (src.details.map Detail.text).isEmpty then _ else _) = _ ↔ _
    cases src.details with
    | nil => exact iff_of_false (fun h => Option.some_ne_none () h.symm) fun h => h rfl
    | cons first rest => exact iff_of_true rfl (List.cons_ne_nil _ _)
  · by_cases hnet : src.type = "network"
    · have hrefused : Refused src ↔ src.taintRange = .perOffset := and_iff_right hnet
      cases hdetails : src.details with
      | nil =>
          have hnil : src.toSource.details = [] := congrArg (List.map Detail.text) hdetails
          rw [setUpSource_network_nil (show src.toSource.type = "network" from hnet) hnil]
          refine iff_of_false (fun h => Option.some_ne_none () h.symm) fun h => ?_
          obtain ⟨first, rest, heq, -⟩ := h.1.2 hnet
          exact List.cons_ne_nil _ _ (heq.symm.trans hdetails)
      | cons first rest =>
          have hcons : src.toSource.details = first.text :: rest.map Detail.text :=
            congrArg (List.map Detail.text) hdetails
          rw [readable_iff_network hnet hdetails, hrefused,
            setUpSource_network_cons (show src.toSource.type = "network" from hnet) hcons]
          show (if src.taintRange = .perOffset then none
            else if first.text ≠ "*" && (src.details.map Detail.text).length % 2 = 1 then none
            else some ()) = some () ↔ _
          rw [hdetails, List.length_map]
          by_cases hg : src.taintRange = .perOffset
          · rw [if_pos hg]
            exact iff_of_false (fun h => Option.some_ne_none () h.symm) fun h => h.2 hg
          · rw [if_neg hg, and_iff_left hg, or_iff_left (b := _ ∧ _) fun h => hg h.1,
              Nat.even_iff]
            by_cases hodd : first.text ≠ "*" ∧ (first :: rest).length % 2 = 1
            · rw [if_pos (by rw [Bool.and_eq_true, decide_eq_true_eq, decide_eq_true_eq]; exact hodd)]
              refine iff_of_false (fun h => Option.some_ne_none () h.symm) ?_
              rintro (h | h)
              · exact hodd.1 h
              · omega
            · rw [if_neg (by rw [Bool.and_eq_true, decide_eq_true_eq, decide_eq_true_eq]; exact hodd)]
              refine iff_of_true rfl ?_
              rw [not_and_or, not_not] at hodd
              exact hodd.imp_right fun h => by omega
    · rw [setUpSource, if_neg (show src.toSource.type ≠ "path" from hpath),
        if_neg (show src.toSource.type ≠ "network" from hnet)]
      exact iff_of_true rfl ⟨⟨fun h => absurd h hpath, fun h => absurd h hnet⟩, fun h => hnet h.1⟩

/-- The model that keeps the options only, and does not say how the loop stops,
    is an abstraction of this one. -/
theorem setFrameworkOptions_eq (conf : Configuration) :
    setFrameworkOptions conf.toConfig = (installSources conf).toOption.map Setup.options := by
  have hstep : ∀ (s : Setup) (src : TaintSource),
      setSource conf.numMarkings s.options src.toSource
        = (installSource conf.numMarkings s src).toOption.map Setup.options := by
    intro s src
    rw [setSource]
    cases ho : setNumMarkings conf.numMarkings s.options with
    | none =>
        rw [installSource, ho]
        rfl
    | some o =>
        show (setUpSource src.toSource).bind (fun _ => some o) = _
        -- a source that cannot be set up stops both
        have hnone : ¬ (Readable src ∧ ¬ Refused src) → setUpSource src.toSource = none := fun h =>
          Option.eq_none_iff_forall_ne_some.mpr fun _ hu => h ((setUpSource_eq_some src).mp hu)
        rcases installSource_spec ho src with ⟨hnot, hrun⟩ | ⟨hread, href, hrun⟩ |
          ⟨hread, href, s₁, hrun, ho₁, -⟩
        · rw [hrun, hnone fun h => hnot h.1]
          rfl
        · rw [hrun, hnone fun h => h.2 href]
          rfl
        · rw [hrun, (setUpSource_eq_some src).mpr ⟨hread, href⟩]
          exact congrArg some ho₁.symm
  -- the two loops go in step
  have hloop : ∀ (sources : List TaintSource) (s : Setup),
      (sources.map TaintSource.toSource).foldlM (setSource conf.numMarkings) s.options
        = (sources.foldlM (installSource conf.numMarkings) s).toOption.map Setup.options := by
    intro sources
    induction sources with
    | nil => exact fun _ => rfl
    | cons src rest ih =>
        intro s
        rw [List.map_cons, List.foldlM_cons, List.foldlM_cons, hstep]
        cases installSource conf.numMarkings s src with
        | error stop => rfl
        | ok s₁ => exact ih s₁
  exact hloop conf.sources .initial

end DytanSourceSetup
