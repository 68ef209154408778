import Workyard.Proofs.Path.Segments
import Workyard.Webpack.Context

/-!
# Names of moved configs

A moved config is named after the config: no two configs share a name when they have moved, and
no moved config has the name of a project file or of a file that is staged.
-/

namespace Workyard

set_option autoImplicit false

open FilePath

/-- A text is cut at the last of its separators in one way only. -/
theorem Text.cut_last_inj {sep : Char} {cs cs' ds ds' : List Char}
    (h : cs ++ sep :: ds = cs' ++ sep :: ds') (hds : sep ∉ ds) (hds' : sep ∉ ds') :
    cs = cs' ∧ ds = ds' := by
  induction cs generalizing cs' with
  | nil =>
    cases cs' with
    | nil => simpa using h
    | cons c cs' =>
      simp only [List.nil_append, List.cons_append, List.cons.injEq] at h
      exact absurd (by simp [h.2] : sep ∈ ds) hds
  | cons c cs ih =>
    cases cs' with
    | nil =>
      simp only [List.nil_append, List.cons_append, List.cons.injEq] at h
      exact absurd (by simp [← h.2] : sep ∈ ds') hds'
    | cons c' cs' =>
      simp only [List.cons_append, List.cons.injEq] at h
      obtain ⟨rfl, h⟩ := h
      obtain ⟨rfl, hds⟩ := ih h
      exact ⟨rfl, hds⟩

namespace FilePath

theorem splitName_append {stem ending : List Char} (h : '.' ∉ ending) :
    splitName (stem ++ '.' :: ending) =
      if stem = [] then ('.' :: ending, none) else (stem, some ending) := by
  have hending : ∀ c ∈ ending.reverse, decide (c ≠ '.') = true := by
    intro c hc
    rw [decide_eq_true_eq]
    rintro rfl
    exact h (List.mem_reverse.mp hc)
  have hafter : (stem ++ '.' :: ending).reverse.takeWhile (· ≠ '.') = ending.reverse := by
    rw [List.reverse_append, List.reverse_cons, List.append_assoc,
      List.takeWhile_append_of_pos hending]
    simp
  have hbefore : (stem ++ '.' :: ending).reverse.dropWhile (· ≠ '.') = '.' :: stem.reverse := by
    rw [List.reverse_append, List.reverse_cons, List.append_assoc,
      List.dropWhile_append_of_pos hending]
    simp
  unfold splitName
  simp only [hafter, hbefore]
  by_cases hstem : stem = []
  · simp [hstem]
  · have hlength : ending.length ≠ stem.length + (ending.length + 1) := by omega
    simp [hstem, hlength]

theorem splitName_of_not_mem {name : List Char} (h : '.' ∉ name) : splitName name = (name, none) := by
  have hname : ∀ c ∈ name.reverse, decide (c ≠ '.') = true := by
    intro c hc
    rw [decide_eq_true_eq]
    rintro rfl
    exact h (List.mem_reverse.mp hc)
  have hall := @List.takeWhile_append_of_pos _ _ _ [] hname
  simp only [List.append_nil, List.takeWhile_nil] at hall
  unfold splitName
  simp only [hall]
  simp

/-- A name is cut at its last dot, if there is one. -/
theorem exists_last_dot (name : List Char) :
    '.' ∉ name ∨ ∃ stem ending, name = stem ++ '.' :: ending ∧ '.' ∉ ending := by
  induction name with
  | nil => simp
  | cons c cs ih =>
    rcases ih with hnot | ⟨stem, ending, rfl, hending⟩
    · by_cases hc : c = '.'
      · exact .inr ⟨[], cs, by simp [hc], hnot⟩
      · exact .inl (by simp [hnot, Ne.symm hc])
    · exact .inr ⟨c :: stem, ending, rfl, hending⟩

end FilePath

namespace Webpack

/-- The characters of the name of a moved config. -/
def legacyCharacters (name : List Char) : List Char :=
  match splitName name with
  | (stem, some ending) => stem ++ ".old".toList ++ '.' :: ending
  | (stem, none) => stem ++ '.' :: "old".toList

variable {name name' : String}

theorem toList_legacyFileName (h : IsName name) :
    (legacyFileName name).toList = legacyCharacters name.toList := by
  have hname := fileName?_of_isName h
  unfold legacyFileName legacyModule legacyCharacters extension? stem?
  rw [hname]
  cases hsplit : splitName name.toList with
  | mk stem ending =>
    cases ending with
    | some ending => simp [hsplit]
    | none => simp [hsplit]

/-- The name of a moved config, cut at its last dot. -/
theorem legacyCharacters_eq (name : List Char) :
    (∃ stem ending, stem ≠ [] ∧ '.' ∉ ending ∧ name = stem ++ '.' :: ending ∧
      legacyCharacters name = stem ++ ".old".toList ++ '.' :: ending) ∨
    ((∀ stem ending, '.' ∉ ending → name = stem ++ '.' :: ending → stem = []) ∧
      legacyCharacters name = name ++ '.' :: "old".toList) := by
  unfold legacyCharacters
  rcases exists_last_dot name with hnot | ⟨stem, ending, rfl, hending⟩
  · refine .inr ⟨fun stem ending _ heq => ?_, by rw [splitName_of_not_mem hnot]⟩
    exact absurd (by simp [heq]) hnot
  · rw [splitName_append hending]
    by_cases hstem : stem = []
    · refine .inr ⟨fun stem' ending' hending' heq => ?_, by simp [hstem]⟩
      rw [← (Text.cut_last_inj heq hending hending').1, hstem]
    · exact .inl ⟨stem, ending, hstem, hending, rfl, by simp [hstem]⟩

theorem legacyCharacters_inj {name name' : List Char}
    (h : legacyCharacters name = legacyCharacters name') : name = name' := by
  have hold : '.' ∉ "old".toList := by decide
  rcases legacyCharacters_eq name with ⟨stem, ending, hstem, hending, hname, hl⟩ | ⟨hnone, hl⟩ <;>
    rcases legacyCharacters_eq name' with
      ⟨stem', ending', hstem', hending', hname', hl'⟩ | ⟨hnone', hl'⟩ <;>
    rw [hl, hl'] at h
  · obtain ⟨hs, rfl⟩ := Text.cut_last_inj h hending hending'
    rw [hname, hname', List.append_cancel_right hs]
  · obtain ⟨hs, _⟩ := Text.cut_last_inj h hending hold
    exact absurd (hnone' stem "old".toList hold (by rw [← hs]; rfl)) hstem
  · obtain ⟨hs, _⟩ := Text.cut_last_inj h hold hending'
    exact absurd (hnone stem' "old".toList hold (by rw [hs]; rfl)) hstem'
  · exact (Text.cut_last_inj h hold hold).1

theorem legacyFileName_inj (h : IsName name) (h' : IsName name')
    (heq : legacyFileName name = legacyFileName name') : name = name' := by
  have hchars := congrArg String.toList heq
  rw [toList_legacyFileName h, toList_legacyFileName h'] at hchars
  exact String.toList_injective (legacyCharacters_inj hchars)

/-- The name of a moved config with an ending that is not the word for moved ones has that word
before its ending. -/
theorem exists_stem_of_legacyCharacters {name cs ending : List Char} (hending : '.' ∉ ending)
    (hne : ending ≠ "old".toList) (h : legacyCharacters name = cs ++ '.' :: ending) :
    ∃ stem, cs = stem ++ ".old".toList := by
  rcases legacyCharacters_eq name with ⟨stem, _, _, hdot, _, hl⟩ | ⟨_, hl⟩ <;> rw [hl] at h
  · exact ⟨stem, (Text.cut_last_inj h hdot hending).1.symm⟩
  · exact absurd (Text.cut_last_inj h (by decide) hending).2.symm hne

theorem legacyCharacters_ne_temporary (name cs : List Char) :
    legacyCharacters name ≠ cs ++ ".conduit.tmp".toList := by
  intro h
  have hcut : legacyCharacters name = cs ++ ".conduit".toList ++ '.' :: "tmp".toList := by
    rw [h, List.append_assoc]
    rfl
  obtain ⟨stem, hstem⟩ := exists_stem_of_legacyCharacters (by decide) (by decide) hcut
  have hlast := congrArg List.getLast? hstem
  simp [List.getLast?_append] at hlast

theorem legacyCharacters_ne_projectFile (name : List Char) :
    legacyCharacters name ≠ "project.json".toList := by
  intro h
  have hcut : legacyCharacters name = "project".toList ++ '.' :: "json".toList := h
  obtain ⟨stem, hstem⟩ := exists_stem_of_legacyCharacters (by decide) (by decide) hcut
  have hdot : '.' ∈ "project".toList := by
    rw [hstem]
    simp
  exact absurd hdot (by decide)

theorem isName_legacyFileName (h : IsName name) : IsName (legacyFileName name) := by
  have hchars := toList_legacyFileName h
  have hslash : '/' ∉ legacyCharacters name.toList := by
    have hname := h.1
    rcases legacyCharacters_eq name.toList with ⟨stem, ending, _, _, heq, hl⟩ | ⟨_, hl⟩ <;> rw [hl]
    · rw [heq] at hname
      simpa using hname
    · simpa using hname
  have hword : 'o' ∈ legacyCharacters name.toList := by
    rcases legacyCharacters_eq name.toList with ⟨stem, ending, _, _, _, hl⟩ | ⟨_, hl⟩ <;> rw [hl] <;>
      simp
  rw [← hchars] at hslash hword
  refine ⟨hslash, ?_, ?_, ?_⟩ <;> intro heq <;> rw [heq] at hword <;> exact absurd hword (by decide)

/-! ### Characters -/

theorem mem_of_mem_fileName {p : FilePath} {s : String} {c : Char} (h : p.fileName? = some s)
    (hc : c ∈ s.toList) : c ∈ p.text.toList := by
  have hlast : p.components.getLast? = some (.name s) := by
    unfold fileName? at h
    split at h
    · rename_i heq
      rw [heq, Option.some.inj h]
    · exact absurd h (by simp)
  have hmem := List.mem_of_getLast? hlast
  have hnames : Component.name s ∈ (p.segments.filter (·.counts)).map fun s => componentOf s.text := by
    unfold components at hmem
    split at hmem
    · exact (List.mem_cons.mp hmem).resolve_left (by simp)
    · exact hmem
  obtain ⟨segment, hsegment, heq⟩ := List.mem_map.mp hnames
  have htext : segment.text = s.toList := by
    unfold componentOf at heq
    split at heq
    · simp at heq
    · split at heq
      · simp at heq
      · rw [← Component.name.inj heq, String.toList_ofList]
  have hpiece : segment.text ∈ Text.splitAt '/' p.text.toList := by
    rw [← segmentsOf_text (Text.splitAt '/' p.text.toList)]
    exact List.mem_map_of_mem (List.mem_filter.mp hsegment).1
  exact Text.mem_of_mem_splitAt hpiece (htext ▸ hc)

theorem mem_of_mem_splitName {name : List Char} {c : Char} (h : c ∈ (splitName name).1 ∨
    ∃ ending, (splitName name).2 = some ending ∧ c ∈ ending) : c ∈ name := by
  rcases exists_last_dot name with hnot | ⟨stem, ending, rfl, hending⟩
  · simpa [splitName_of_not_mem hnot] using h
  · rw [splitName_append hending] at h
    by_cases hstem : stem = []
    · subst hstem
      simpa using h
    · rw [if_neg hstem] at h
      rcases h with h | ⟨ending', heq, h⟩
      · exact List.mem_append_left _ h
      · obtain rfl : ending = ending' := Option.some.inj heq
        exact List.mem_append_right stem (List.mem_cons_of_mem '.' h)

/-- The name by which a moved config is required adds a word to the name of the config. -/
theorem mem_legacyModule {c : Char} (h : c ∈ (legacyModule name).toList) :
    c ∈ name.toList ∨ c ∈ ".old".toList := by
  rw [legacyModule, String.toList_append, List.mem_append] at h
  refine h.imp_left fun h => ?_
  unfold stem? at h
  cases hname : (⟨name⟩ : FilePath).fileName? with
  | none => simpa [hname] using h
  | some s =>
    rw [hname] at h
    have hs : c ∈ s.toList := mem_of_mem_splitName (.inl (by simpa using h))
    exact mem_of_mem_fileName hname hs

theorem mem_legacyFileName {c : Char} (h : c ∈ (legacyFileName name).toList) :
    c ∈ name.toList ∨ c ∈ ".old".toList := by
  unfold legacyFileName at h
  cases hextension : (⟨name⟩ : FilePath).extension? with
  | none =>
    rw [hextension] at h
    exact mem_legacyModule h
  | some extension =>
    simp only [hextension, String.toList_append, List.mem_append] at h
    rcases h with (h | h) | h
    · exact mem_legacyModule h
    · exact .inr (by simp_all)
    · obtain ⟨s, hname, hs⟩ := Option.bind_eq_some_iff.mp hextension
      obtain ⟨ending, hending, rfl⟩ := Option.map_eq_some_iff.mp hs
      rw [String.toList_ofList] at h
      exact .inl (mem_of_mem_fileName hname (mem_of_mem_splitName (.inr ⟨ending, hending, h⟩)))

/-! ### Stem and extension -/

theorem stem?_of_isName (h : IsName name) :
    (⟨name⟩ : FilePath).stem? = some (String.ofList (splitName name.toList).1) := by
  rw [stem?, fileName?_of_isName h]
  rfl

theorem extension?_of_isName (h : IsName name) :
    (⟨name⟩ : FilePath).extension? = (splitName name.toList).2.map String.ofList := by
  rw [extension?, fileName?_of_isName h]
  rfl

/-- The name by which a moved config is required is the stem of the config with a word behind it. -/
theorem toList_legacyModule (h : IsName name) :
    (legacyModule name).toList = (splitName name.toList).1 ++ ".old".toList := by
  simp [legacyModule, stem?_of_isName h]

theorem length_lt_legacyCharacters (name : List Char) : name.length < (legacyCharacters name).length := by
  rcases legacyCharacters_eq name with ⟨stem, ending, _, _, hname, hl⟩ | ⟨_, hl⟩
  · rw [hl, hname]
    simp
  · rw [hl]
    simp

theorem legacyFileName_ne (h : IsName name) : legacyFileName name ≠ name := by
  intro heq
  have hlt := length_lt_legacyCharacters name.toList
  rw [← toList_legacyFileName h, heq] at hlt
  exact Nat.lt_irrefl _ hlt

/-- A name with an extension is cut at the same place when the config has moved, and what stands
before the extension is what the new config requires. -/
theorem splitName_legacyFileName (h : IsName name) {ending : List Char}
    (hending : (splitName name.toList).2 = some ending) :
    splitName (legacyFileName name).toList = ((legacyModule name).toList, some ending) := by
  rw [toList_legacyFileName h, toList_legacyModule h]
  rcases exists_last_dot name.toList with hnot | ⟨stem, ending', hname, hdot⟩
  · rw [splitName_of_not_mem hnot] at hending
    exact absurd hending (by simp)
  · rw [hname, splitName_append hdot] at hending
    have hstem : stem ≠ [] := by
      rintro rfl
      simp at hending
    rw [if_neg hstem] at hending
    obtain rfl := Option.some.inj hending
    have hsplit : splitName name.toList = (stem, some ending') := by
      rw [hname, splitName_append hdot, if_neg hstem]
    rw [legacyCharacters, hsplit]
    simp only
    rw [splitName_append hdot, if_neg (by simp)]

/-- No two configs have one name when they have moved, and none keeps its name. A config without an
extension moves to the name by which it is required; another one keeps its extension, and what
stands before that is the name by which it is required. -/
theorem legacyFileName_apart (h : IsName name) (h' : IsName name') :
    (legacyFileName name = legacyFileName name' → name = name') ∧ legacyFileName name ≠ name ∧
      ((⟨name⟩ : FilePath).extension? = none → legacyFileName name = legacyModule name) ∧
      ∀ ending, (⟨name⟩ : FilePath).extension? = some ending →
        legacyFileName name = legacyModule name ++ "." ++ ending ∧
          (⟨legacyFileName name⟩ : FilePath).extension? = some ending ∧
          (⟨legacyFileName name⟩ : FilePath).stem? = some (legacyModule name) := by
  refine ⟨legacyFileName_inj h h', legacyFileName_ne h, fun hnone => ?_, fun ending hending => ?_⟩
  · rw [legacyFileName, hnone]
  · have hmoved := isName_legacyFileName h
    have hcut := hending
    rw [extension?_of_isName h, Option.map_eq_some_iff] at hcut
    obtain ⟨cs, hcs, rfl⟩ := hcut
    have hsplit := splitName_legacyFileName h hcs
    refine ⟨by rw [legacyFileName, hending], ?_, ?_⟩
    · rw [extension?_of_isName hmoved, hsplit]
      rfl
    · rw [stem?_of_isName hmoved, hsplit, String.ofList_toList]

/-- One of the configs has the name to which the other one moves, and the other one has nothing
behind its last dot. -/
theorem legacyFileName_apart_trailingDot :
    IsName "webpack." ∧ IsName "webpack.old." ∧
      (⟨"webpack."⟩ : FilePath).extension? = some "" ∧
      legacyFileName "webpack." = "webpack.old." ∧ legacyFileName "webpack.old." ≠ "webpack.old." ∧
      legacyFileName "webpack." ≠ legacyFileName "webpack.old." ∧
      (⟨legacyFileName "webpack."⟩ : FilePath).stem? = some "webpack.old" := by
  have hname : IsName "webpack." := by decide
  have hname' : IsName "webpack.old." := by decide
  have hending : (⟨"webpack."⟩ : FilePath).extension? = some "" := by decide
  obtain ⟨hinj, _, _, hkept⟩ := legacyFileName_apart hname hname'
  obtain ⟨hmoved, _, hstem⟩ := hkept "" hending
  have hmodule : legacyModule "webpack." = "webpack.old" := by decide
  rw [hmodule] at hmoved hstem
  exact ⟨hname, hname', hending, hmoved, (legacyFileName_apart hname' hname).2.1,
    fun heq => absurd (hinj heq) (by decide), hstem⟩

end Webpack

end Workyard
