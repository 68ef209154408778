import Workyard.Options.Marker
import Workyard.Proofs.Script.Shape

/-!
# Scripts without a marker

A tree without a fault in which nothing is called by the name of a marker has no site of it, so that
nothing is extracted from the script.
-/

namespace Workyard.Options

set_option autoImplicit false

open Script Script.Node

variable {source : List Char} {callee : String} {k : Kind} {a b : Text.Mark source}
variable {n : Node source} {ns ms : List (Node source)}

/-- A tree without a fault in which nothing is called by a name. -/
inductive Quiet (callee : String) : Node source → Prop
  | leaf {k : Kind} {m : Text.Mark source} {s : String} (hk : k.isFault = false) :
      Quiet callee (.leaf k m s)
  | branch {k : Kind} {a b : Text.Mark source} {ns : List (Node source)} (hk : k.isFault = false)
      (hcall : k = .call → ∀ n ∈ ns.head?, isNameOf callee n = false)
      (hns : ∀ n ∈ ns, Quiet callee n) : Quiet callee (.branch k a b ns)

theorem Quiet.plain (hk : k.isFault = false) (hcall : decide (k = .call) = false)
    (hns : ∀ n ∈ ns, Quiet callee n) : Quiet callee (.branch k a b ns) :=
  .branch hk (fun heq => absurd heq (of_decide_eq_false hcall)) hns

theorem Quiet.pair {n₁ n₂ : Node source} (hk : k.isFault = false)
    (hcall : decide (k = .call) = false) (h₁ : Quiet callee n₁) (h₂ : Quiet callee n₂) :
    Quiet callee (.branch k a b [n₁, n₂]) :=
  .plain hk hcall (List.forall_mem_cons.mpr ⟨h₁, List.forall_mem_singleton.mpr h₂⟩)

theorem Quiet.triple {n₁ n₂ n₃ : Node source} (hk : k.isFault = false)
    (hcall : decide (k = .call) = false) (h₁ : Quiet callee n₁) (h₂ : Quiet callee n₂)
    (h₃ : Quiet callee n₃) : Quiet callee (.branch k a b [n₁, n₂, n₃]) :=
  .plain hk hcall (List.forall_mem_cons.mpr ⟨h₁, List.forall_mem_cons.mpr
    ⟨h₂, List.forall_mem_singleton.mpr h₃⟩⟩)

theorem Quiet.call {f : String} {m : Text.Mark source} (hf : f ≠ callee)
    (hns : ∀ n ∈ ns, Quiet callee n) : Quiet callee (.branch .call a b (.leaf .name m f :: ns)) := by
  refine .branch rfl (fun _ n hn => ?_) (List.forall_mem_cons.mpr ⟨.leaf rfl, hns⟩)
  obtain rfl := Option.some.inj hn
  exact decide_eq_false hf

theorem quiet_of_isLeafOf {kinds : Kind → Bool} (hkinds : ∀ k, kinds k = true → k.isFault = false)
    (h : ∀ n ∈ ns, n.IsLeafOf kinds) : ∀ n ∈ ns, Quiet callee n := by
  intro n hn
  obtain ⟨k, m, s, rfl, hk⟩ := h n hn
  exact .leaf (hkinds k hk)

theorem quiet_of_leaves (h : ∀ n ∈ ns, n.IsLeafOf Kind.isQuotedPart) : ∀ n ∈ ns, Quiet callee n :=
  quiet_of_isLeafOf (fun k hk => by cases k <;> first | rfl | cases hk) h

theorem quiet_of_layout (h : ∀ n ∈ ns, n.IsLeafOf Kind.isLayout) : ∀ n ∈ ns, Quiet callee n :=
  quiet_of_isLeafOf (fun k hk => by cases k <;> first | rfl | cases hk) h

theorem anyFault_of_forall (h : ∀ n ∈ ns, n.hasFault = false) : anyFault ns = false := by
  rw [Bool.eq_false_iff, ne_eq, anyFault_eq_true_iff]
  rintro ⟨n, hn, hfault⟩
  exact Bool.false_ne_true ((h n hn).symm.trans hfault)

theorem sitesOfAll_of_forall {astray inCall : Bool}
    (h : ∀ n ∈ ns, ∀ inCall, sitesOf callee astray inCall n = []) :
    sitesOfAll callee astray inCall ns = [] := by
  induction ns with
  | nil => rfl
  | cons n ns ih =>
    rw [List.forall_mem_cons] at h
    rw [sitesOfAll, h.1, ih h.2, List.append_nil]

theorem Quiet.sound (h : Quiet callee n) :
    n.hasFault = false ∧ ∀ inCall, sitesOf callee false inCall n = [] := by
  induction h with
  | leaf hk =>
    refine ⟨hk, fun inCall => ?_⟩
    rw [sitesOf, Bool.and_false, Bool.false_and]
    rfl
  | @branch k a b ns hk hcall _ ih =>
    have hfault : anyFault ns = false := anyFault_of_forall fun n hn => (ih n hn).1
    refine ⟨by rw [hasFault, hk, hfault]; rfl, fun inCall => ?_⟩
    have herror : (false || decide (k = .error)) = false := by
      rw [Bool.false_or, decide_eq_false_iff_not]
      rintro rfl
      cases hk
    have hhead : (decide (k = .call) && (ns.head?.map (isNameOf callee)).getD false) = false := by
      by_cases hk : k = .call
      · have hcall := hcall hk
        cases ns with
        | nil => exact Bool.and_false _
        | cons n ns => exact (congrArg _ (hcall n rfl)).trans (Bool.and_false _)
      · rw [decide_eq_false hk, Bool.false_and]
    rw [sitesOf, herror, hhead, if_neg Bool.false_ne_true]
    exact sitesOfAll_of_forall fun n hn => (ih n hn).2

/-- Nothing is extracted from a script that does not call the first marker. -/
theorem extract_of_quiet {names : MarkerNames} {text : String}
    (h : Quiet names.primary (Script.parse text.toList)) :
    (extract names text).result = .ok none := by
  obtain ⟨hfault, hsites⟩ := h.sound
  unfold extract markerIn
  simp only [hfault, hsites]
  rfl

end Workyard.Options
