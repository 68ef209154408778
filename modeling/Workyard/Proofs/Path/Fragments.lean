import Workyard.Path.FilePath
import Workyard.Path.Fragment

/-!
# Joined fragments

A path that is resolved says what it said before, whatever it stands behind and whatever comes
behind it. So a relative path may be resolved before it is joined to a base or after, and joining
fragments is associative as long as the one in the middle is relative.
-/

namespace Workyard.Path

set_option autoImplicit false

open Text
open FilePath (countsWithin)

variable {absolute trailing : Bool} {path path' : List Char} {segment : List Char}
variable {names segments stack : List (List Char)}

/-! ### Segments on a stack -/

/-- A segment that goes up. -/
def up : List Char := ['.', '.']

/-- A segment that goes down by a name. -/
def IsStep (segment : List Char) : Prop :=
  countsWithin segment = true ∧ segment ≠ up

theorem countsWithin_iff : countsWithin segment = true ↔ segment ≠ [] ∧ segment ≠ ['.'] := by
  simp [countsWithin]

theorem segment_cases (segment : List Char) :
    countsWithin segment = false ∨ segment = up ∨ IsStep segment := by
  by_cases hup : segment = up
  · exact .inr (.inl hup)
  · cases hcounts : countsWithin segment with
    | false => exact .inl rfl
    | true => exact .inr (.inr ⟨hcounts, hup⟩)

theorem pushSegment_quiet (h : countsWithin segment = false) :
    pushSegment absolute stack segment = stack := by
  refine if_pos (Classical.byContradiction fun hloud => ?_)
  rw [countsWithin_iff.mpr (not_or.mp hloud)] at h
  exact Bool.noConfusion h

theorem pushSegment_step (h : IsStep segment) :
    pushSegment absolute stack segment = segment :: stack := by
  have hloud := not_or.mpr (countsWithin_iff.mp h.1)
  have hup : segment ≠ ['.', '.'] := h.2
  simp only [pushSegment, if_neg hloud, if_neg hup]

theorem pushSegment_up_step (h : IsStep segment) :
    pushSegment absolute (segment :: stack) up = stack := by
  have hup : segment ≠ ['.', '.'] := h.2
  simp [pushSegment, up, hup]

/-- Going up takes back a step; where there is none, it is kept or stays at the top. -/
theorem up_cases (stack : List (List Char)) :
    (∃ s below, stack = s :: below ∧ s ≠ up ∧ ∀ absolute, pushSegment absolute stack up = below) ∨
      ∀ absolute, pushSegment absolute stack up = if absolute then stack else up :: stack := by
  cases stack with
  | nil => exact .inr fun absolute => rfl
  | cons s below =>
    by_cases hup : s = up
    · subst hup
      exact .inr fun absolute => rfl
    · have hup' : s ≠ ['.', '.'] := hup
      exact .inl ⟨s, below, rfl, hup, fun absolute => by simp [pushSegment, up, hup']⟩

theorem mem_pushSegment {s : List Char} (h : s ∈ pushSegment absolute stack segment) :
    s ∈ stack ∨ s = segment ∧ countsWithin segment = true := by
  rcases segment_cases segment with hquiet | rfl | hstep
  · rw [pushSegment_quiet hquiet] at h
    exact .inl h
  · rcases up_cases stack with ⟨s', below, rfl, _, hbelow⟩ | hkept
    · rw [hbelow] at h
      exact .inl (List.mem_cons_of_mem _ h)
    · rw [hkept] at h
      split at h
      · exact .inl h
      · exact (List.mem_cons.mp h).symm.imp_right fun hs => ⟨hs, rfl⟩
  · rw [pushSegment_step hstep] at h
    exact (List.mem_cons.mp h).symm.imp_right fun hs => ⟨hs, hstep.1⟩

theorem mem_foldl_pushSegment {s : List Char}
    (h : s ∈ segments.foldl (pushSegment absolute) stack) :
    s ∈ stack ∨ s ∈ segments ∧ countsWithin s = true := by
  induction segments generalizing stack with
  | nil => exact .inl h
  | cons s' ss ih =>
    rcases ih h with h | ⟨h, hs⟩
    · rcases mem_pushSegment h with h | ⟨rfl, hs⟩
      · exact .inl h
      · exact .inr ⟨List.mem_cons_self, hs⟩
    · exact .inr ⟨List.mem_cons_of_mem _ h, hs⟩

/-- Nothing goes up from the top. -/
theorem up_not_mem_foldl (h : up ∉ stack) : up ∉ segments.foldl (pushSegment true) stack := by
  induction segments generalizing stack with
  | nil => exact h
  | cons s ss ih =>
    refine ih ?_
    rcases segment_cases s with hquiet | rfl | hstep
    · rwa [pushSegment_quiet hquiet]
    · rcases up_cases stack with ⟨s', below, rfl, _, hbelow⟩ | hkept
      · rw [hbelow]
        exact fun hmem => h (List.mem_cons_of_mem _ hmem)
      · rwa [hkept, if_pos rfl]
    · rw [pushSegment_step hstep]
      exact fun hmem => (List.mem_cons.mp hmem).elim (fun heq => hstep.2 heq.symm) h

theorem foldl_filter_countsWithin (absolute : Bool) (segments stack : List (List Char)) :
    (segments.filter countsWithin).foldl (pushSegment absolute) stack =
      segments.foldl (pushSegment absolute) stack := by
  induction segments generalizing stack with
  | nil => rfl
  | cons s ss ih =>
    cases hs : countsWithin s with
    | false => rw [List.filter_cons_of_neg (by simp [hs]), List.foldl_cons, pushSegment_quiet hs, ih]
    | true => rw [List.filter_cons_of_pos hs, List.foldl_cons, List.foldl_cons, ih]

theorem foldl_pushSegment_steps (h : ∀ s ∈ segments, IsStep s) :
    segments.foldl (pushSegment absolute) stack = segments.reverse ++ stack := by
  induction segments generalizing stack with
  | nil => rfl
  | cons s ss ih =>
    rw [List.foldl_cons, pushSegment_step (h s List.mem_cons_self),
      ih fun s' hs' => h s' (List.mem_cons_of_mem _ hs'), List.reverse_cons, List.append_assoc]
    rfl

/-- A relative stack grows by a segment just as every stack below which it is laid. -/
theorem foldl_reverse_pushSegment (h : ∀ s ∈ names, countsWithin s = true) :
    (pushSegment false names segment).reverse.foldl (pushSegment absolute) stack =
      pushSegment absolute (names.reverse.foldl (pushSegment absolute) stack) segment := by
  rcases segment_cases segment with hquiet | rfl | hstep
  · rw [pushSegment_quiet hquiet, pushSegment_quiet hquiet]
  · rcases up_cases names with ⟨s, below, rfl, hup, hbelow⟩ | hkept
    · have hstep : IsStep s := ⟨h s List.mem_cons_self, hup⟩
      rw [hbelow, List.reverse_cons, List.foldl_append, List.foldl_cons, List.foldl_nil,
        pushSegment_step hstep, pushSegment_up_step hstep]
    · rw [hkept, if_neg Bool.false_ne_true, List.reverse_cons, List.foldl_append]
      rfl
  · rw [pushSegment_step hstep, List.reverse_cons, List.foldl_append]
    rfl

theorem foldl_reverse_foldl (h : ∀ s ∈ names, countsWithin s = true) :
    (segments.foldl (pushSegment false) names).reverse.foldl (pushSegment absolute) stack =
      segments.foldl (pushSegment absolute) (names.reverse.foldl (pushSegment absolute) stack) := by
  induction segments generalizing names with
  | nil => rfl
  | cons s ss ih =>
    rw [List.foldl_cons, List.foldl_cons, ← foldl_reverse_pushSegment h, ih]
    intro s' hs'
    rcases mem_pushSegment hs' with hs' | ⟨rfl, hs'⟩
    · exact h s' hs'
    · exact hs'

/-! ### Resolved paths -/

def rooted (path : List Char) : Bool :=
  path.head? == some '/'

/-- The path asks for a directory by a slash at its end. -/
def trails (path : List Char) : Bool :=
  path.getLast? == some '/'

/-- The segments of a path that say something. -/
def spoken (path : List Char) : List (List Char) :=
  (splitAt '/' path).filter countsWithin

theorem resolve_eq (path : List Char) :
    resolve path = ((spoken path).foldl (pushSegment (rooted path)) []).reverse := by
  rw [spoken, foldl_filter_countsWithin]
  rfl

theorem mem_resolve (h : segment ∈ resolve path) :
    segment ∈ splitAt '/' path ∧ countsWithin segment = true :=
  (mem_foldl_pushSegment (List.mem_reverse.mp h)).resolve_left List.not_mem_nil

/-- What is left of a path is all that a path which it begins needs of it. -/
theorem foldl_resolve (path : List Char) :
    (resolve path).foldl (pushSegment (rooted path)) [] = (resolve path).reverse := by
  rw [resolve_eq, List.reverse_reverse]
  cases rooted path with
  | false => exact foldl_reverse_foldl (by simp)
  | true =>
    have hsteps : ∀ s ∈ ((spoken path).foldl (pushSegment true) []).reverse, IsStep s := by
      intro s hs
      have hs := List.mem_reverse.mp hs
      refine ⟨?_, fun hup => up_not_mem_foldl List.not_mem_nil (hup ▸ hs)⟩
      exact ((mem_foldl_pushSegment hs).resolve_left List.not_mem_nil).2
    rw [foldl_pushSegment_steps hsteps, List.reverse_reverse, List.append_nil]

/-- The names that a resolved path is made of. -/
def Proper (names : List (List Char)) : Prop :=
  ∀ s ∈ names, countsWithin s = true ∧ '/' ∉ s

theorem proper_resolve (path : List Char) : Proper (resolve path) :=
  fun _ hs => ⟨(mem_resolve hs).2, not_mem_of_mem_splitAt (mem_resolve hs).1⟩

theorem rooted_append (h : path ≠ []) : rooted (path ++ path') = rooted path := by
  obtain ⟨c, cs, rfl⟩ := List.exists_cons_of_ne_nil h
  rfl

theorem trails_append (h : path' ≠ []) : trails (path ++ path') = trails path' := by
  unfold trails
  rw [List.getLast?_append, List.getLast?_eq_some_getLast h, Option.some_or]

theorem trails_append_cons (h : path' ≠ []) : trails (path ++ '/' :: path') = trails path' := by
  rw [List.append_cons path, trails_append h]

theorem rooted_of_not_mem (h : '/' ∉ path) : rooted path = false := by
  refine Bool.eq_false_iff.mpr fun hrooted => h ?_
  exact List.mem_of_mem_head? (by simpa [rooted] using hrooted)

theorem trails_of_not_mem (h : '/' ∉ path) : trails path = false := by
  refine Bool.eq_false_iff.mpr fun htrails => h ?_
  exact List.mem_of_getLast? (by simpa [trails] using htrails)

theorem joinWith_proper (h : Proper names) (hne : names ≠ []) :
    joinWith ['/'] names ≠ [] ∧ rooted (joinWith ['/'] names) = false ∧
      trails (joinWith ['/'] names) = false := by
  induction names with
  | nil => exact absurd rfl hne
  | cons s ss ih =>
    obtain ⟨hcounts, hslash⟩ := h s List.mem_cons_self
    have hs : s ≠ [] := (countsWithin_iff.mp hcounts).1
    by_cases hss : ss = []
    · subst hss
      exact ⟨hs, rooted_of_not_mem hslash, trails_of_not_mem hslash⟩
    · obtain ⟨hjoin, _, htrails⟩ := ih (fun s' hs' => h s' (List.mem_cons_of_mem _ hs')) hss
      rw [joinWith_cons_of_ne_nil hss]
      refine ⟨by simp, ?_, by rw [trails_append hjoin, htrails]⟩
      rw [List.append_assoc, rooted_append hs, rooted_of_not_mem hslash]

theorem spoken_nil : spoken [] = [] := rfl

theorem spoken_append_cons (path path' : List Char) :
    spoken (path ++ '/' :: path') = spoken path ++ spoken path' := by
  rw [spoken, splitAt_append_cons, List.filter_append]
  rfl

theorem spoken_joinWith (h : Proper names) : spoken (joinWith ['/'] names) = names := by
  by_cases hne : names = []
  · subst hne
    rfl
  · rw [spoken, splitAt_joinWith hne fun s hs => (h s hs).2]
    exact List.filter_eq_self.mpr fun s hs => (h s hs).1

/-- A path without the slash that may be asked for at its end. -/
def plain (absolute : Bool) (names : List (List Char)) : List Char :=
  if absolute then '/' :: joinWith ['/'] names
  else if names = [] then ['.'] else joinWith ['/'] names

theorem plain_spec (absolute : Bool) (h : Proper names) :
    plain absolute names ≠ [] ∧ rooted (plain absolute names) = absolute ∧
      trails (plain absolute names) = (absolute && names.isEmpty) ∧
      spoken (plain absolute names) = names := by
  by_cases hne : names = []
  · subst hne
    cases absolute <;> decide
  · obtain ⟨hjoin, hrooted, htrails⟩ := joinWith_proper h hne
    have hempty : names.isEmpty = false := by simpa using hne
    cases absolute with
    | false =>
      rw [plain, if_neg Bool.false_ne_true, if_neg hne]
      exact ⟨hjoin, hrooted, by simp [htrails], spoken_joinWith h⟩
    | true =>
      have hcons : '/' :: joinWith ['/'] names = ['/'] ++ joinWith ['/'] names := rfl
      rw [plain, if_pos rfl]
      refine ⟨by simp, rfl, ?_, ?_⟩
      · rw [hcons, trails_append hjoin, htrails, hempty]
        rfl
      · exact (spoken_append_cons [] _).trans (spoken_joinWith h)

/-- A path of the given names. -/
def render (absolute : Bool) (names : List (List Char)) (trailing : Bool) : List Char :=
  if trailing && !trails (plain absolute names) then plain absolute names ++ ['/']
  else plain absolute names

theorem render_ne_nil (h : Proper names) : render absolute names trailing ≠ [] := by
  unfold render
  split
  · simp
  · exact (plain_spec absolute h).1

theorem render_spec (h : Proper names) : rooted (render absolute names trailing) = absolute ∧
    trails (render absolute names trailing) = (trailing || (absolute && names.isEmpty)) ∧
      spoken (render absolute names trailing) = names := by
  obtain ⟨hne, hrooted, htrails, hspoken⟩ := plain_spec absolute h
  unfold render
  rw [htrails]
  split
  · rename_i htrailing
    refine ⟨by rw [rooted_append hne, hrooted], ?_, ?_⟩
    · rw [trails_append (by simp)]
      simp_all [trails]
    · rw [spoken_append_cons, hspoken, spoken_nil, List.append_nil]
  · rename_i htrailing
    refine ⟨hrooted, ?_, hspoken⟩
    rw [htrails]
    cases trailing <;> simp_all

/-- A path that is resolved says where it starts, which names are left, and if it trails. -/
theorem normalize_eq (path : List Char) :
    normalize path = render (rooted path) (resolve path) (trails path) := by
  have hout : (if (if rooted path then '/' :: joinWith ['/'] (resolve path)
      else joinWith ['/'] (resolve path)) = [] then ['.']
      else if rooted path then '/' :: joinWith ['/'] (resolve path)
      else joinWith ['/'] (resolve path)) = plain (rooted path) (resolve path) := by
    unfold plain
    by_cases hne : resolve path = []
    · rw [hne]
      cases rooted path <;> rfl
    · have hjoin := (joinWith_proper (proper_resolve path) hne).1
      cases rooted path <;> simp [hne, hjoin]
  unfold normalize
  split
  · rename_i h
    subst h
    rfl
  · unfold render
    rw [← hout]
    rfl

theorem rooted_normalize (path : List Char) : rooted (normalize path) = rooted path := by
  rw [normalize_eq]
  exact (render_spec (proper_resolve path)).1

theorem trails_normalize (path : List Char) :
    trails (normalize path) = (trails path || (rooted path && (resolve path).isEmpty)) := by
  rw [normalize_eq]
  exact (render_spec (proper_resolve path)).2.1

theorem spoken_normalize (path : List Char) : spoken (normalize path) = resolve path := by
  rw [normalize_eq]
  exact (render_spec (proper_resolve path)).2.2

theorem resolve_normalize (path : List Char) : resolve (normalize path) = resolve path := by
  rw [resolve_eq, spoken_normalize, rooted_normalize, foldl_resolve, List.reverse_reverse]

theorem normalize_ne_nil (path : List Char) : normalize path ≠ [] := by
  rw [normalize_eq]
  exact render_ne_nil (proper_resolve path)

/-! ### Joined paths -/

theorem normalize_normalize (path : List Char) : normalize (normalize path) = normalize path := by
  rw [normalize_eq (normalize path), rooted_normalize, resolve_normalize, trails_normalize,
    normalize_eq]
  -- The root trails by itself, so that a slash at its end makes no difference.
  unfold render
  rw [(plain_spec _ (proper_resolve path)).2.2.1]
  cases trails path <;> cases rooted path && (resolve path).isEmpty <;> rfl

theorem resolve_append (h : path ≠ []) : resolve (path ++ '/' :: path') =
    ((spoken path').foldl (pushSegment (rooted path)) (resolve path).reverse).reverse := by
  rw [resolve_eq, resolve_eq path, spoken_append_cons, rooted_append h, List.foldl_append,
    List.reverse_reverse]

theorem normalize_append_left (h : path ≠ []) :
    normalize (normalize path ++ '/' :: path') = normalize (path ++ '/' :: path') := by
  have hne := normalize_ne_nil path
  have htrails : '/' :: path' ≠ [] := by simp
  rw [normalize_eq, normalize_eq (path ++ _), rooted_append hne, rooted_append h, rooted_normalize,
    resolve_append hne, resolve_append h, resolve_normalize, rooted_normalize,
    trails_append htrails, trails_append htrails]

theorem normalize_append_right (h : path ≠ []) (hne : path' ≠ []) (hrelative : rooted path' = false) :
    normalize (path ++ '/' :: normalize path') = normalize (path ++ '/' :: path') := by
  have hresolve : resolve (path ++ '/' :: normalize path') = resolve (path ++ '/' :: path') := by
    rw [resolve_append h, resolve_append h, spoken_normalize, resolve_eq path', hrelative,
      foldl_reverse_foldl (by simp)]
    rfl
  have htrails : trails (path ++ '/' :: normalize path') = trails (path ++ '/' :: path') := by
    rw [trails_append_cons (normalize_ne_nil path'), trails_append_cons hne, trails_normalize,
      hrelative, Bool.false_and, Bool.or_false]
  rw [normalize_eq, normalize_eq (path ++ _), hresolve, htrails, rooted_append h, rooted_append h]

/-- Two paths as one, with a slash between them where both say something. -/
def glue (path path' : List Char) : List Char :=
  if path = [] then path' else if path' = [] then path else path ++ '/' :: path'

theorem glue_assoc (p q r : List Char) : glue p (glue q r) = glue (glue p q) r := by
  by_cases hp : p = [] <;> by_cases hq : q = [] <;> by_cases hr : r = [] <;>
    simp [glue, hp, hq, hr]

theorem glue_ne_nil_left (h : path ≠ []) : glue path path' ≠ [] := by
  unfold glue
  rw [if_neg h]
  split
  · exact h
  · simp

theorem glue_ne_nil_right (h : path' ≠ []) : glue path path' ≠ [] := by
  unfold glue
  split
  · exact h
  · simp

theorem rooted_glue (h : path ≠ []) : rooted (glue path path') = rooted path := by
  unfold glue
  rw [if_neg h]
  split
  · rfl
  · exact rooted_append h

theorem normalize_glue_left (h : path ≠ []) :
    normalize (glue (normalize path) path') = normalize (glue path path') := by
  unfold glue
  rw [if_neg h, if_neg (normalize_ne_nil path)]
  split
  · exact normalize_normalize path
  · exact normalize_append_left h

theorem normalize_glue_right (h : path' ≠ []) (hrelative : rooted path' = false) :
    normalize (glue path (normalize path')) = normalize (glue path path') := by
  unfold glue
  rw [if_neg h, if_neg (normalize_ne_nil path')]
  split
  · exact normalize_normalize path'
  · rename_i hpath
    exact normalize_append_right hpath h hrelative

/-! ### Joined fragments -/

/-- The characters of a fragment, with slashes for backslashes. -/
def slashes (fragment : String) : List Char :=
  fragment.toList.map slashed

theorem slashes_eq_nil {fragment : String} : slashes fragment = [] ↔ fragment = "" := by
  simp [slashes]

theorem slashes_eq_self {fragment : String} (h : '\\' ∉ fragment.toList) :
    slashes fragment = fragment.toList := by
  refine (List.map_congr_left fun c hc => ?_).trans (List.map_id _)
  refine if_neg ?_
  rintro rfl
  exact h hc

theorem backslash_not_mem_slashes (fragment : String) : '\\' ∉ slashes fragment := by
  intro hmem
  obtain ⟨c, _, hc⟩ := List.mem_map.mp hmem
  unfold slashed at hc
  split at hc
  · exact absurd hc (by decide)
  · rename_i hne
    exact hne hc

theorem backslash_not_mem_glue (h : '\\' ∉ path) (h' : '\\' ∉ path') : '\\' ∉ glue path path' := by
  unfold glue
  split
  · exact h'
  · split
    · exact h
    · simp [h, h']

theorem backslash_not_mem_normalize (h : '\\' ∉ path) : '\\' ∉ normalize path := by
  have hjoin : '\\' ∉ joinWith ['/'] (resolve path) := by
    intro hmem
    rcases mem_of_mem_joinWith hmem with hmem | ⟨s, hs, hmem⟩
    · exact absurd hmem (by decide)
    · exact h (mem_of_mem_splitAt (mem_resolve hs).1 hmem)
  have hplain : '\\' ∉ plain (rooted path) (resolve path) := by
    unfold plain
    split
    · simp [hjoin]
    · split
      · decide
      · exact hjoin
  rw [normalize_eq]
  unfold render
  split
  · simp [hplain]
  · exact hplain

theorem toList_joinFragments (p q : String) :
    (joinFragments [p, q]).toList = normalize (glue (slashes p) (slashes q)) := by
  have hslash : slashed '/' = '/' := rfl
  have hempty : slashes "" = [] := rfl
  unfold joinFragments
  rw [String.toList_ofList]
  by_cases hp : p = "" <;> by_cases hq : q = "" <;>
    simp [glue, slashes_eq_nil, joinWith, hempty, hp, hq]
  · rfl
  · rfl
  · simp [slashes, hslash]

/-- Fragments that are joined hold no backslash any more. -/
theorem slashes_joinFragments (p q : String) :
    slashes (joinFragments [p, q]) = normalize (glue (slashes p) (slashes q)) := by
  rw [slashes_eq_self, toList_joinFragments]
  rw [toList_joinFragments]
  exact backslash_not_mem_normalize
    (backslash_not_mem_glue (backslash_not_mem_slashes p) (backslash_not_mem_slashes q))

/-- A fragment that names something below where it stands. -/
def IsRelative (fragment : String) : Prop :=
  fragment ≠ "" ∧ ∀ c ∈ fragment.toList.head?, c ≠ '/' ∧ c ≠ '\\'

theorem rooted_slashes {a : String} (h : IsRelative a) : rooted (slashes a) = false := by
  unfold rooted slashes
  cases hchars : a.toList with
  | nil => rfl
  | cons c cs =>
    obtain ⟨hslash, hback⟩ := h.2 c (by simp [hchars])
    simp [slashed, hslash, hback]

theorem joinFragments_assoc {a : String} (h : IsRelative a) (b s : String) :
    joinFragments [b, joinFragments [a, s]] = joinFragments [joinFragments [b, a], s] := by
  have hne : slashes a ≠ [] := fun hnil => h.1 (slashes_eq_nil.mp hnil)
  apply String.toList_injective
  rw [toList_joinFragments, toList_joinFragments, slashes_joinFragments, slashes_joinFragments,
    normalize_glue_right (glue_ne_nil_left hne), normalize_glue_left (glue_ne_nil_right hne),
    glue_assoc]
  rw [rooted_glue hne, rooted_slashes h]

end Workyard.Path
