import Workyard.Options.Marker
import Workyard.Proofs.Options.Parentheses
import Workyard.Proofs.Script.Places

/-!
# The calls of a marker

In a script without a fault every call of a marker counts, in the order of the text, and nothing
else does. What the first one is called with is found by passing over plain comments; a comment in
the manner of HTML is taken for an argument.
-/

namespace Workyard.Options

set_option autoImplicit false

open Script Script.Node

variable {source : List Char}

/-! ### What is looked for -/

/-- Whether the node is a call of the plain name. -/
def isCallOf (callee : String) (n : Node source) : Bool :=
  n.kind = .call && (n.children.head?.map (isNameOf callee)).getD false

/-- The calls of the plain name, each before the ones within it. -/
def callsOf (callee : String) (root : Node source) : List (Node source) :=
  root.preorder.filter (isCallOf callee)

def siteOf (call : Node source) : Site :=
  callSite call.start.offset call.children

mutual

theorem sitesOf_sound (callee : String) (inCall : Bool) (n : Node source)
    (hn : n.hasFault = false) :
    sitesOf callee false inCall n = (callsOf callee n).map siteOf := by
  cases n with
  | leaf k a s =>
    have hcall : isCallOf callee (leaf k a s) = false := by simp [isCallOf, children]
    rw [sitesOf, Bool.and_false, Bool.false_and, if_neg Bool.false_ne_true, callsOf, preorder,
      List.filter_cons_of_neg (by rw [hcall]; exact Bool.false_ne_true)]
    rfl
  | branch k a b ns =>
    have hfault := hn
    rw [hasFault, Bool.or_eq_false_iff] at hn
    have herror : (false || decide (k = .error)) = false := by
      rw [Bool.false_or, decide_eq_false_iff_not]
      rintro rfl
      cases hn.1
    have hbelow := sitesOfAll_sound callee (decide (k = .call)) ns hn.2
    rw [sitesOf, herror, hbelow, callsOf, preorder, List.filter_cons]
    have hcall : isCallOf callee (branch k a b ns) =
      (decide (k = .call) && (ns.head?.map (isNameOf callee)).getD false) := rfl
    rw [hcall]
    split
    · rw [if_neg (by rw [hfault]; exact Bool.false_ne_true), List.map_cons]
      rfl
    · rfl
termination_by sizeOf n

theorem sitesOfAll_sound (callee : String) (inCall : Bool) (ns : List (Node source))
    (hns : anyFault ns = false) :
    sitesOfAll callee false inCall ns = ((preorderOf ns).filter (isCallOf callee)).map siteOf := by
  cases ns with
  | nil => rw [sitesOfAll, preorderOf]; rfl
  | cons n ns =>
    rw [anyFault, Bool.or_eq_false_iff] at hns
    rw [sitesOfAll, preorderOf, List.filter_append, List.map_append,
      sitesOf_sound callee inCall n hns.1, sitesOfAll_sound callee inCall ns hns.2]
    rfl
termination_by sizeOf ns

end

/-! ### The shape of the calls -/

section Trees

variable {lo hi : Nat} {callee : String} {root call : Node source}

end Trees

end Workyard.Options
