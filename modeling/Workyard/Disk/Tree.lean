import Workyard.Disk.Fault

/-!
# Directory trees

A directory lists its entries by name, in no particular order. A location is the list of
names that lead to an entry from the top. What stands at every location is the view of a
tree: two trees with the same view differ at most in the order of their listings.
-/

namespace Workyard.Disk

set_option autoImplicit false

/-- What a file holds: a text, or bytes that are the form of no text. -/
inductive Content where
  | text (text : String)
  | raw (bytes : List UInt8)
  deriving DecidableEq, Repr

def Content.ofBytes (bytes : ByteArray) : Content :=
  match String.fromUTF8? bytes with
  | some s => .text s
  | none => .raw bytes.toList

inductive Entry where
  | file (content : Content)
  | directory (entries : List (String × Entry))

abbrev Listing := List (String × Entry)

abbrev Location := List String

namespace Listing

def get? (name : String) : Listing → Option Entry
  | [] => none
  | (n, e) :: es => if n = name then some e else get? name es

/-- Replaces the entry of a name in its place, or appends it. -/
def set (name : String) (entry : Entry) : Listing → Listing
  | [] => [(name, entry)]
  | (n, e) :: es => if n = name then (n, entry) :: es else (n, e) :: set name entry es

def erase (name : String) (es : Listing) : Listing :=
  es.filter (·.1 ≠ name)

theorem get?_set (name name' : String) (entry : Entry) (es : Listing) :
    get? name' (set name entry es) = if name = name' then some entry else get? name' es := by
  induction es with
  | nil => simp [set, get?]
  | cons m es ih =>
    obtain ⟨n, e⟩ := m
    by_cases h : n = name <;> by_cases h' : name = name' <;> by_cases h'' : n = name' <;>
      simp_all [set, get?]

theorem get?_erase (name name' : String) (es : Listing) :
    get? name' (erase name es) = if name = name' then none else get? name' es := by
  induction es with
  | nil => simp [erase, get?]
  | cons m es ih =>
    obtain ⟨n, e⟩ := m
    simp only [erase] at ih ⊢
    by_cases h : n = name <;> by_cases h' : name = name' <;> by_cases h'' : n = name' <;>
      simp_all [get?]

end Listing

/-- What stands at a location, without the entries of a directory. -/
inductive Node where
  | file (content : Content)
  | directory
  deriving DecidableEq, Repr

namespace Entry

def node : Entry → Node
  | file content => .file content
  | directory _ => .directory

def isDirectory : Entry → Bool
  | directory _ => true
  | file _ => false

/-- The entry at a location below. -/
def find? : Location → Entry → Option Entry
  | [], e => some e
  | _ :: _, file _ => none
  | name :: names, directory es => (Listing.get? name es).bind (find? names)

/-- Puts an entry at a location whose parent is a directory; elsewhere nothing changes. -/
def put : Location → Entry → Entry → Entry
  | [], _, new => new
  | _ :: _, file content, _ => file content
  | [name], directory es, new => directory (Listing.set name new es)
  | name :: names, directory es, new =>
    match Listing.get? name es with
    | some e => directory (Listing.set name (put names e new) es)
    | none => directory es

/-- Takes away the entry at a location. The top stays. -/
def erase : Location → Entry → Entry
  | [], e => e
  | _ :: _, file content => file content
  | [name], directory es => directory (Listing.erase name es)
  | name :: names, directory es =>
    match Listing.get? name es with
    | some e => directory (Listing.set name (erase names e) es)
    | none => directory es

def at? (l : Location) (e : Entry) : Option Node :=
  (e.find? l).map node

@[simp] theorem find?_nil (e : Entry) : e.find? [] = some e := by
  cases e <;> rfl

theorem find?_cons (name : String) (names : Location) (es : Listing) :
    (directory es).find? (name :: names) = (Listing.get? name es).bind (find? names) := rfl

theorem find?_append (l l' : Location) (e : Entry) :
    e.find? (l ++ l') = (e.find? l).bind (find? l') := by
  induction l generalizing e with
  | nil => simp
  | cons name l ih =>
    cases e with
    | file content => rfl
    | directory es =>
      simp only [List.cons_append, find?_cons]
      cases Listing.get? name es with
      | none => rfl
      | some e => simp [ih]

theorem put_single (name : String) (es : Listing) (new : Entry) :
    (directory es).put [name] new = directory (Listing.set name new es) := rfl

theorem put_below (name name' : String) (names : Location) (es : Listing) (new : Entry) :
    (directory es).put (name :: name' :: names) new =
      match Listing.get? name es with
      | some e => directory (Listing.set name (e.put (name' :: names) new) es)
      | none => directory es := rfl

theorem erase_single (name : String) (es : Listing) :
    (directory es).erase [name] = directory (Listing.erase name es) := rfl

theorem erase_below (name name' : String) (names : Location) (es : Listing) :
    (directory es).erase (name :: name' :: names) =
      match Listing.get? name es with
      | some e => directory (Listing.set name (e.erase (name' :: names)) es)
      | none => directory es := rfl

theorem node_put_cons (new : Entry) (name : String) (names : Location) (e : Entry) :
    (e.put (name :: names) new).node = e.node := by
  cases e with
  | file content => rfl
  | directory es =>
    cases names with
    | nil => rfl
    | cons name' names =>
      rw [put_below]
      cases Listing.get? name es <;> rfl

theorem node_erase (l : Location) (e : Entry) : (e.erase l).node = e.node := by
  cases l with
  | nil => cases e <;> rfl
  | cons name names =>
    cases e with
    | file content => rfl
    | directory es =>
      cases names with
      | nil => rfl
      | cons name' names =>
        rw [erase_below]
        cases Listing.get? name es <;> rfl

/-- An entry that was put is found with all that is below it. -/
theorem find?_put_append {new e : Entry} {l : Location} {name : String} {es : Listing}
    (h : e.find? l = some (directory es)) (l' : Location) :
    (e.put (l ++ [name]) new).find? (l ++ name :: l') = new.find? l' := by
  induction l generalizing e with
  | nil =>
    simp only [find?_nil, Option.some.injEq] at h
    subst h
    simp [put_single, find?_cons, Listing.get?_set]
  | cons n l ih =>
    cases e with
    | file content => simp [find?] at h
    | directory fs =>
      simp only [find?_cons] at h
      cases hn : Listing.get? n fs with
      | none => simp [hn] at h
      | some e =>
        simp only [hn, Option.bind_some] at h
        cases hl : l ++ [name] with
        | nil => simp at hl
        | cons m ms =>
          have := ih h
          rw [hl] at this
          simp [List.cons_append, hl, put_below, hn, find?_cons, Listing.get?_set, this]

/-- Putting an entry leaves every other location as it was. -/
theorem at?_put_of_not_prefix {new e : Entry} {l l' : Location} (h : ¬ l <+: l') :
    (e.put l new).at? l' = e.at? l' := by
  induction l generalizing e l' with
  | nil => exact absurd (List.nil_prefix) h
  | cons n l ih =>
    cases l' with
    | nil => simp [at?, node_put_cons]
    | cons n' l' =>
      cases e with
      | file content => rfl
      | directory es =>
        cases l with
        | nil =>
          have hn : n ≠ n' := fun hn => h (by subst hn; exact ⟨l', rfl⟩)
          simp [put_single, at?, find?_cons, Listing.get?_set, hn]
        | cons m l =>
          cases hg : Listing.get? n es with
          | none => simp [put_below, hg]
          | some e =>
            by_cases hn : n = n'
            · subst hn
              have hp : ¬ (m :: l) <+: l' := fun hp => h (List.cons_prefix_cons.2 ⟨rfl, hp⟩)
              have := ih (e := e) hp
              simp only [at?] at this
              simp [put_below, at?, hg, find?_cons, Listing.get?_set, this]
            · simp [put_below, at?, hg, find?_cons, Listing.get?_set, hn]

/-- What was taken away is gone with all that was below it. -/
theorem at?_erase_of_prefix {e : Entry} {l l' : Location} (hl : l ≠ []) (h : l <+: l') :
    (e.erase l).at? l' = none := by
  induction l generalizing e l' with
  | nil => exact absurd rfl hl
  | cons n l ih =>
    obtain ⟨tail, rfl⟩ := h
    cases e with
    | file content => rfl
    | directory es =>
      cases l with
      | nil => simp [erase_single, at?, find?_cons, Listing.get?_erase]
      | cons m l =>
        cases hg : Listing.get? n es with
        | none => simp [erase_below, at?, find?_cons, hg]
        | some e =>
          have := @ih e ((m :: l) ++ tail) (by simp) ⟨tail, rfl⟩
          simp only [at?] at this
          simpa [erase_below, at?, hg, find?_cons, Listing.get?_set] using this

/-- Taking an entry away leaves every other location as it was. -/
theorem at?_erase_of_not_prefix {e : Entry} {l l' : Location} (h : ¬ l <+: l') :
    (e.erase l).at? l' = e.at? l' := by
  induction l generalizing e l' with
  | nil => exact absurd (List.nil_prefix) h
  | cons n l ih =>
    cases l' with
    | nil => simp [at?, node_erase]
    | cons n' l' =>
      cases e with
      | file content => rfl
      | directory es =>
        cases l with
        | nil =>
          have hn : n ≠ n' := fun hn => h (by subst hn; exact ⟨l', rfl⟩)
          simp [erase_single, at?, find?_cons, Listing.get?_erase, hn]
        | cons m l =>
          cases hg : Listing.get? n es with
          | none => simp [erase_below, hg]
          | some e =>
            by_cases hn : n = n'
            · subst hn
              have hp : ¬ (m :: l) <+: l' := fun hp => h (List.cons_prefix_cons.2 ⟨rfl, hp⟩)
              have := ih (e := e) hp
              simp only [at?] at this
              simp [erase_below, at?, hg, find?_cons, Listing.get?_set, this]
            · simp [erase_below, at?, hg, find?_cons, Listing.get?_set, hn]

end Entry

end Workyard.Disk
