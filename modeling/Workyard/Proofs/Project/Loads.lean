import Workyard.Proofs.Json.InTurn
import Workyard.Proofs.Project.Labels

/-!
# What a project file loads to

A project file as it is written, with the targets and the label lists in turn. The project has a
target for every name, where it came first, with what came last under it. Its group is the first
label that is not blank of its own, of its further data and of the lists that name it.
-/

namespace Workyard.Project

set_option autoImplicit false

open Json Text

/-! ### Files with their members in turn -/

/-- The parts of a project file, with the members of its targets and its label lists one by one. -/
structure Document where
  name : Option String
  root : Option String
  targets : List (String × Json)
  labels : List (String × Json)

namespace Document

def labelField : Reader.Field (List (String × Json)) :=
  ⟨"targetGroups", false, fun depth _ cs => Reader.objectInTurn depth cs⟩

def fields : List (Reader.Field Document) := [
  ⟨"name", true, fun _ doc cs => do
    let (name, cs) ← Reader.optionalText cs
    .ok ({ doc with name }, cs)⟩,
  ⟨"root", true, fun _ doc cs => do
    let (root, cs) ← Reader.optionalText cs
    .ok ({ doc with root }, cs)⟩,
  ⟨"targets", false, fun depth doc cs => do
    let (targets, cs) ← Reader.objectInTurn depth cs
    .ok ({ doc with targets }, cs)⟩,
  ⟨"metadata", false, fun depth doc cs => do
    let (labels, cs) ← Reader.record [labelField] depth [] cs
    .ok ({ doc with labels }, cs)⟩]

def parse (text : String) : Except Fault Document :=
  Reader.finish (Reader.record fields Reader.maxDepth ⟨none, none, [], []⟩) text.toList

/-- The parts with each key once. -/
def merged (doc : Document) : Written :=
  ⟨doc.name, doc.root, Members.ofList doc.targets, Members.ofList doc.labels⟩

theorem alike_labelField : Reader.Alike Members.ofList labelField Written.labelField :=
  ⟨rfl, rfl, fun depth _ cs => Reader.objectMembers_eq_objectInTurn depth cs⟩

theorem record_labelField (depth : Nat) (cs : List Char) :
    Reader.record [Written.labelField] depth [] cs =
      (Reader.record [labelField] depth [] cs).map fun r => (Members.ofList r.1, r.2) :=
  Reader.reads_record (.cons alike_labelField .nil) depth [] cs

theorem alike_fields : List.Forall₂ (Reader.Alike merged) fields Written.fields := by
  refine .cons ⟨rfl, rfl, ?_⟩ (.cons ⟨rfl, rfl, ?_⟩ (.cons ⟨rfl, rfl, ?_⟩ (.cons ⟨rfl, rfl, ?_⟩ .nil)))
  · intro depth doc cs
    dsimp only
    cases Reader.optionalText cs <;> rfl
  · intro depth doc cs
    dsimp only
    cases Reader.optionalText cs <;> rfl
  · intro depth doc cs
    dsimp only
    rw [Reader.objectMembers_eq_objectInTurn]
    cases Reader.objectInTurn depth cs <;> rfl
  · intro depth doc cs
    dsimp only
    rw [record_labelField]
    cases Reader.record [labelField] depth [] cs <;> rfl

end Document

/-- What is read of a project file is the document with each key once. -/
theorem Written.parse_eq (text : String) :
    Written.parse text = (Document.parse text).map Document.merged :=
  Reader.finish_of_reads (Reader.reads_record Document.alike_fields Reader.maxDepth
    ⟨none, none, [], []⟩) text.toList

/-! ### What the document says of a target -/

/-- What came last under the name. -/
def Document.body? (doc : Document) (name : String) : Option Json :=
  (doc.targets.reverse.find? (·.1 = name)).map (·.2)

/-- A label that is not blank, if there is one. -/
def visibleLabel? (v : Option Json) : Option String :=
  (v.bind string?).bind Target.cleanLabel

def ownLabel? (body : Json) : Option String :=
  visibleLabel? (body.field? "group" 1)

def furtherLabel? (body : Json) : Option String :=
  visibleLabel? ((body.field? "metadata" 4).bind (·.field? "group" 0))

/-- An array with the text as one of its items. -/
def Lists (v : Json) (name : String) : Prop :=
  ∃ vs, v = .array vs ∧ Json.string name ∈ vs

/-- The group of a target with this body: the first label of its own, of its further data and of the
lists that name it. -/
inductive GroupOf (labels : Members) (name : String) (body : Json) : Option String → Prop
  | own {label : String} (hown : ownLabel? body = some label) : GroupOf labels name body (some label)
  | further {label : String} (hown : ownLabel? body = none)
      (hfurther : furtherLabel? body = some label) : GroupOf labels name body (some label)
  | listed {before after : Members} {label : String} {v : Json} (hown : ownLabel? body = none)
      (hfurther : furtherLabel? body = none) (hlabels : labels = before ++ (label, v) :: after)
      (hlists : Lists v name) (hfirst : ∀ m ∈ before, ¬ Lists m.2 name) :
      GroupOf labels name body (some label)
  | none (hown : ownLabel? body = none) (hfurther : furtherLabel? body = none)
      (hunlisted : ∀ m ∈ labels, ¬ Lists m.2 name) : GroupOf labels name body none

/-- What a target has from its body. -/
structure LoadsFrom (body : Json) (t : Target) : Prop where
  executor : t.executor = (body.field? "executor" 0).bind string?
  options : t.options = ((body.field? "options" 2).bind object?).getD []
  configurations : t.configurations = ((body.field? "configurations" 3).bind object?).getD []

/-- What the lists say of the targets with these names. -/
def saidOf (names : List String) (labels : Members) : List (String × List String) :=
  (labels.map fun m => (m.1, (listed m.2).filter names.contains)).filter (!·.2.isEmpty)

variable {labels labels' : Members} {name : String} {names : List String} {body : Json}

theorem string?_eq_some {v : Json} : v.string? = some name ↔ v = .string name := by
  cases v <;> simp [string?]

theorem mem_listed {v : Json} : name ∈ listed v ↔ Lists v name := by
  cases v with
  | array vs => simp [listed, Lists, string?_eq_some]
  | _ => simp [listed, Lists]

namespace WrittenTarget

theorem eq_of_fieldOr_text {v : Option Json} {text : Option String}
    (h : fieldOr optionalText none v = .ok text) : text = v.bind string? := by
  cases v with
  | none => exact (Except.ok.inj h).symm
  | some v =>
    cases v with
    | null => exact (Except.ok.inj h).symm
    | string s => exact (Except.ok.inj h).symm
    | _ => exact absurd h (by simp [fieldOr, optionalText])

theorem eq_of_fieldOr_members {v : Option Json} {ms : Members}
    (h : fieldOr members [] v = .ok ms) : ms = (v.bind object?).getD [] := by
  cases v with
  | none => exact (Except.ok.inj h).symm
  | some v =>
    cases v with
    | object ms => exact (Except.ok.inj h).symm
    | _ => exact absurd h (by simp [fieldOr, members])

theorem eq_of_fieldOr_metadata {v : Option Json} {label : Option String}
    (h : fieldOr metadataLabel none v = .ok label) :
    label = (v.bind (·.field? "group" 0)).bind string? := by
  cases v with
  | none => exact (Except.ok.inj h).symm
  | some v => exact eq_of_fieldOr_text (metadataLabel_eq_ok.mp h).2

end WrittenTarget

theorem loadsFrom_of_ofJson {b : WrittenTarget} (h : WrittenTarget.ofJson body = .ok b)
    (labels : Members) (name : String) :
    LoadsFrom body (targetOf labels name b) ∧
      (targetOf labels name b).group =
        (ownLabel? body <|> furtherLabel? body <|> declaredLabel? labels name) := by
  obtain ⟨-, hfields⟩ := WrittenTarget.ofJson_eq_ok.mp h
  obtain ⟨hexecutor, hgroup, hoptions, hconfigurations, hmetadata⟩ :=
    WrittenTarget.ofFields_eq_ok.mp hfields
  refine ⟨⟨WrittenTarget.eq_of_fieldOr_text hexecutor, WrittenTarget.eq_of_fieldOr_members hoptions,
    WrittenTarget.eq_of_fieldOr_members hconfigurations⟩, ?_⟩
  rw [targetOf, WrittenTarget.eq_of_fieldOr_text hgroup,
    WrittenTarget.eq_of_fieldOr_metadata hmetadata]
  rfl

/-- A blank label is no group. -/
theorem isBlank_of_group {b : WrittenTarget} {label : String}
    (h : (targetOf labels name b).group = some label) : isBlank label = false := by
  have hclean : ∀ {l : String}, Target.cleanLabel l = some label → isBlank label = false := by
    intro l hl
    obtain ⟨rfl, hvisible⟩ := Target.cleanLabel_eq_some.mp hl
    exact hvisible
  simp only [targetOf, Option.orElse_eq_orElse, Option.orElse_eq_or, Option.or_eq_some_iff] at h
  rcases h with h | ⟨-, h | ⟨-, h⟩⟩
  · obtain ⟨l, -, hl⟩ := Option.bind_eq_some_iff.mp h
    exact hclean hl
  · obtain ⟨l, -, hl⟩ := Option.bind_eq_some_iff.mp h
    exact hclean hl
  · obtain ⟨m, -, hm⟩ := Option.bind_eq_some_iff.mp h
    exact hclean hm

theorem groupOf_of_visible (hlabels : ∀ m ∈ labels, isBlank m.1 = false) (name : String)
    (body : Json) : GroupOf labels name body
      (ownLabel? body <|> furtherLabel? body <|> declaredLabel? labels name) := by
  cases hown : ownLabel? body with
  | some label => exact .own hown
  | none =>
    cases hfurther : furtherLabel? body with
    | some label => exact .further hown hfurther
    | none =>
      show GroupOf labels name body (declaredLabel? labels name)
      unfold declaredLabel?
      cases hfind : labels.find? fun m => (listed m.2).contains name with
      | none =>
        refine .none hown hfurther fun m hm hlists => ?_
        have hnot := List.find?_eq_none.mp hfind m hm
        exact hnot (List.contains_iff_mem.mpr (mem_listed.mpr hlists))
      | some m =>
        obtain ⟨hm, before, after, hsplit, hbefore⟩ := List.find?_eq_some_iff_append.mp hfind
        have hvisible := hlabels m (List.mem_of_find?_eq_some hfind)
        have hclean : Target.cleanLabel m.1 = some m.1 := Target.cleanLabel_eq_some.mpr ⟨rfl, hvisible⟩
        rw [Option.bind_some, hclean]
        refine .listed hown hfurther hsplit (mem_listed.mp (List.contains_iff_mem.mp hm)) ?_
        intro m' hm' hlists
        have hnot := hbefore m' hm'
        rw [List.contains_iff_mem.mpr (mem_listed.mpr hlists)] at hnot
        exact absurd hnot (by decide)

/-! ### What has no effect -/

theorem saidOf_cons (names : List String) (m : String × Json) (labels : Members) :
    saidOf names (m :: labels) =
      if (listed m.2).filter names.contains = [] then saidOf names labels
      else (m.1, (listed m.2).filter names.contains) :: saidOf names labels := by
  by_cases hnone : (listed m.2).filter names.contains = []
  · simp [saidOf, hnone]
  · simp [saidOf, hnone]

theorem find?_contains_cons (label : String) (said : List String)
    (rest : List (String × List String)) :
    ((label, said) :: rest).find? (·.2.contains name) =
      if name ∈ said then some (label, said) else rest.find? (·.2.contains name) := by
  rw [List.find?_cons]
  by_cases hin : name ∈ said
  · simp [hin]
  · simp [hin]

/-- The label that the lists give to a target is told by what they say of the targets. -/
theorem declaredLabel?_eq_saidOf (hname : name ∈ names) : declaredLabel? labels name =
    ((saidOf names labels).find? (·.2.contains name)).bind fun m => Target.cleanLabel m.1 := by
  induction labels with
  | nil => rfl
  | cons m labels ih =>
    have hmem : name ∈ (listed m.2).filter names.contains ↔ name ∈ listed m.2 := by
      rw [List.mem_filter]
      exact and_iff_left (List.contains_iff_mem.mpr hname)
    rw [declaredLabel?_cons, saidOf_cons]
    by_cases hlisted : name ∈ listed m.2
    · have hin := hmem.mpr hlisted
      rw [if_pos hlisted, if_neg (List.ne_nil_of_mem hin), find?_contains_cons, if_pos hin, Option.bind_some]
    · rw [if_neg hlisted, ih]
      split
      · rfl
      · rw [find?_contains_cons, if_neg fun hin => hlisted (hmem.mp hin)]

theorem targetsOf_congr {ms : Members}
    (h : ∀ name ∈ Members.keys ms, declaredLabel? labels name = declaredLabel? labels' name) :
    targetsOf labels ms = targetsOf labels' ms := by
  induction ms with
  | nil => rfl
  | cons m ms ih =>
    obtain ⟨name, body⟩ := m
    obtain ⟨hname, hrest⟩ := List.forall_mem_cons.mp h
    rw [targetsOf, targetsOf, ih hrest]
    simp only [targetOf, hname]

/-! ### Projects -/

/-- A project has a target for each name of the document, in the order in which the names came
first, with what came last under it. Of the label lists only what they say of the targets has a part
in that. -/
theorem loads_exact {text name root : String} {path : FilePath} {p : Project}
    (h : (parse text path name root).result = .ok p) :
    ∃ doc labels, Document.parse text = .ok doc ∧ Members.Merged doc.labels labels ∧
      p.name = doc.name.getD name ∧ p.root = doc.root.getD root ∧ p.source = some path ∧
      (p.targets.map (·.name)).Nodup ∧
      p.targets.map (·.name) = (doc.targets.map (·.1)).eraseDups ∧
      (∀ t ∈ p.targets, (∀ label, t.group = some label → isBlank label = false) ∧
        ∃ body, doc.body? t.name = some body ∧ LoadsFrom body t ∧
          ((∀ m ∈ doc.labels, isBlank m.1 = false) → GroupOf labels t.name body t.group)) ∧
      ∀ text' doc' labels', Document.parse text' = .ok doc' →
        Members.Merged doc'.labels labels' → doc'.name = doc.name → doc'.root = doc.root →
        doc'.targets = doc.targets →
        saidOf (p.targets.map (·.name)) labels' = saidOf (p.targets.map (·.name)) labels →
          (parse text' path name root).result = .ok p := by
  obtain ⟨w, hw, htargets, hname, hroot, hsource⟩ := parse_eq_ok.mp h
  rw [Written.parse_eq] at hw
  obtain ⟨doc, hdoc, rfl⟩ : ∃ doc, Document.parse text = .ok doc ∧ doc.merged = w := by
    cases hdoc : Document.parse text with
    | error fault => rw [hdoc] at hw; exact absurd hw (by simp [Except.map])
    | ok doc => rw [hdoc] at hw; exact ⟨doc, rfl, Except.ok.inj hw⟩
  have hmerged := Members.merged_ofList doc.targets
  have hnames : p.targets.map (·.name) = Members.keys (Members.ofList doc.targets) :=
    names_targetsOf htargets
  refine ⟨doc, Members.ofList doc.labels, hdoc, Members.merged_ofList _, hname, hroot, hsource,
    p.nodup, hnames.trans hmerged.keys_eq, fun t ht => ?_, ?_⟩
  · obtain ⟨body, b, hmem, hb, ht⟩ := exists_body htargets ht
    have hbody := Members.get?_of_mem (Members.nodup_keys_ofList doc.targets) hmem
    rw [hmerged.last] at hbody
    obtain ⟨hloads, hgroup⟩ := loadsFrom_of_ofJson hb doc.merged.labels t.name
    rw [← ht] at hloads hgroup
    refine ⟨fun label hlabel => ?_, body, hbody, hloads, fun hlabels => ?_⟩
    · exact isBlank_of_group (ht ▸ hlabel)
    · rw [hgroup]
      exact groupOf_of_visible (fun m hm => hlabels m (Members.mem_ofList hm)) t.name body
  · intro text' doc' labels' hdoc' hmerged' hname' hroot' htargets' hsaid
    obtain rfl := Members.merged_iff.mp hmerged'
    refine parse_eq_ok.mpr ⟨doc'.merged, ?_, ?_, ?_, ?_, hsource⟩
    · rw [Written.parse_eq, hdoc']
      rfl
    · rw [← htargets]
      show targetsOf (Members.ofList doc'.labels) (Members.ofList doc'.targets) =
        targetsOf (Members.ofList doc.labels) (Members.ofList doc.targets)
      rw [htargets']
      refine targetsOf_congr fun n hn => ?_
      rw [← hnames] at hn
      rw [declaredLabel?_eq_saidOf hn, declaredLabel?_eq_saidOf hn, hsaid]
    · rw [hname]
      show _ = doc'.name.getD name
      rw [hname']
      rfl
    · rw [hroot]
      show _ = doc'.root.getD root
      rw [hroot']
      rfl

/-- A project file with such label lists. The first of its targets is given again. -/
def textWithLists (lists : String) : String :=
  "\x7b\"targets\":\x7b\"b\":\x7b\"group\":\"old\"\x7d,\"a\":\x7b\"group\":\" \"\x7d," ++
    "\"b\":\x7b\"executor\":\"y\"\x7d\x7d,\"metadata\":\x7b\"targetGroups\":\x7b" ++ lists ++ "\x7d\x7d\x7d"

/-- Lists with a name that is no target, an item that is no text and a value that is no array. -/
def strangeText : String :=
  textWithLists "\"G\":[\"b\",\"zz\",true],\"H\":[\"b\"],\"I\":\"a\""

def plainText : String :=
  textWithLists "\"G\":[\"b\"],\"H\":[\"b\"]"

theorem eq_map_of_mapM {α β : Type} {f : α → Option β} {g : β → α}
    (hf : ∀ a b, f a = some b → a = g b) {as : List α} {bs : List β} (h : as.mapM f = some bs) :
    as = bs.map g := by
  induction as generalizing bs with
  | nil =>
    obtain rfl : [] = bs := by simpa using h
    rfl
  | cons a as ih =>
    rw [List.mapM_cons] at h
    obtain ⟨b, hb, h⟩ := Option.bind_eq_some_iff.mp h
    obtain ⟨bs, hbs, h⟩ := Option.bind_eq_some_iff.mp h
    obtain rfl := Option.some.inj h
    rw [List.map_cons, ← hf a b hb, ← ih hbs]

/-- The members of an object all of which are texts. -/
def textMembers? (v : Json) : Option (List (String × String)) :=
  v.object?.bind (·.mapM fun m => m.2.string?.map fun s => (m.1, s))

theorem eq_of_textMembers? {v : Json} {ts : List (String × String)} (h : textMembers? v = some ts) :
    v = .object (ts.map fun t => (t.1, .string t.2)) := by
  obtain ⟨ms, hms, hmap⟩ := Option.bind_eq_some_iff.mp h
  have hobject : v = .object ms := by
    cases v with
    | object ms' => rw [Option.some.inj hms]
    | _ => exact absurd hms (by simp [object?])
  rw [hobject, eq_map_of_mapM ?_ hmap]
  rintro ⟨k, v⟩ t ht
  obtain ⟨s, hs, rfl⟩ := Option.map_eq_some_iff.mp ht
  have hv : v = .string s := string?_eq_some.mp hs
  rw [hv]

def bodiesOf? (doc : Document) : Option (List (String × List (String × String))) :=
  doc.targets.mapM fun m => (textMembers? m.2).map fun ts => (m.1, ts)

theorem targets_of_bodiesOf? {doc : Document} {bs : List (String × List (String × String))}
    (h : bodiesOf? doc = some bs) :
    doc.targets = bs.map fun b => (b.1, .object (b.2.map fun t => (t.1, .string t.2))) := by
  refine eq_map_of_mapM ?_ h
  rintro ⟨k, v⟩ b hb
  obtain ⟨ts, hts, rfl⟩ := Option.map_eq_some_iff.mp hb
  have hv : v = .object (ts.map fun t => (t.1, .string t.2)) := eq_of_textMembers? hts
  rw [hv]

/-- A document whose targets are objects of texts, with what its lists say of the targets that have
these names. -/
structure Outline where
  name : Option String
  root : Option String
  bodies : Option (List (String × List (String × String)))
  labels : List String
  said : List (String × List String)
  deriving DecidableEq

def outline (names : List String) (doc : Document) : Outline where
  name := doc.name
  root := doc.root
  bodies := bodiesOf? doc
  labels := doc.labels.map (·.1)
  said := saidOf names (Members.ofList doc.labels)

theorem loads_exact_strangeText : ∃ p doc,
    (parse strangeText ⟨"project.json"⟩ "p" ".").result = .ok p ∧
    p.targets.map (·.name) = ["b", "a"] ∧ p.targets.map (·.group) = [some "G", none] ∧
    Document.parse strangeText = .ok doc ∧ (∀ m ∈ doc.labels, isBlank m.1 = false) ∧
    (∀ t ∈ p.targets, ∃ body, doc.body? t.name = some body ∧ LoadsFrom body t ∧
      GroupOf (Members.ofList doc.labels) t.name body t.group) ∧
    (parse plainText ⟨"project.json"⟩ "p" ".").result = .ok p := by
  have hgroups : groupsIn strangeText = some [some "G", none] := by decide +kernel
  have hstrange : (Document.parse strangeText).toOption.map (outline ["b", "a"]) = some ⟨none, none,
      some [("b", [("group", "old")]), ("a", [("group", " ")]), ("b", [("executor", "y")])],
      ["G", "H", "I"], [("G", ["b"]), ("H", ["b"])]⟩ := by
    decide +kernel
  have hplain : (Document.parse plainText).toOption.map (outline ["b", "a"]) = some ⟨none, none,
      some [("b", [("group", "old")]), ("a", [("group", " ")]), ("b", [("executor", "y")])],
      ["G", "H"], [("G", ["b"]), ("H", ["b"])]⟩ := by
    decide +kernel
  obtain ⟨p, hp, hgroups⟩ := exists_of_groupsIn hgroups
  obtain ⟨doc, labels, hdoc, hlabels, -, -, -, -, hnames, htargets, hsame⟩ := loads_exact hp
  obtain rfl := Members.merged_iff.mp hlabels
  obtain ⟨doc', hdoc', hplain⟩ := Option.map_eq_some_iff.mp hplain
  rw [hdoc] at hstrange
  obtain ⟨hname, hroot, hbodies, hkeys, hsaid⟩ := Outline.mk.inj (Option.some.inj hstrange)
  obtain ⟨hname', hroot', hbodies', -, hsaid'⟩ := Outline.mk.inj hplain
  have hbodies := targets_of_bodiesOf? hbodies
  have hfirst : p.targets.map (·.name) = ["b", "a"] := by
    rw [hnames, hbodies]
    decide
  have hvisible : ∀ m ∈ doc.labels, isBlank m.1 = false := by
    intro m hm
    have hkey := List.mem_map_of_mem (f := (·.1)) hm
    rw [hkeys] at hkey
    exact (by decide : ∀ k ∈ ["G", "H", "I"], isBlank k = false) m.1 hkey
  refine ⟨p, doc, hp, hfirst, hgroups, hdoc, hvisible, fun t ht => ?_, ?_⟩
  · obtain ⟨-, body, hbody, hloads, hgroup⟩ := htargets t ht
    exact ⟨body, hbody, hloads, hgroup hvisible⟩
  · refine hsame plainText doc' _ (result_of_toOption hdoc') (Members.merged_ofList _)
      (hname'.trans hname.symm) (hroot'.trans hroot.symm) ((targets_of_bodiesOf? hbodies').trans hbodies.symm) ?_
    rw [hfirst, hsaid, hsaid']

end Workyard.Project
