import CallHarvest.Text.Utf8

/-!
# The registry of calls

A registry holds the texts of the calls that were found, each once.  The order in which they came
is of no account: two registries with the same texts are equal in the sense of `sameTexts`, and
what is written is written in the order of the bytes.

* `Registry` — a list of texts without repetition.
* `Registry.insert` — adds a text (`mem_insert`).
* `Registry.sorted` — the texts in the order of their bytes (`mem_sorted`).
-/

namespace CallHarvest

/-- A set of call texts. -/
structure Registry where
  texts : List String
  nodup : texts.Nodup

namespace Registry

/-- The registry without texts. -/
def empty : Registry := ⟨[], List.nodup_nil⟩

instance : Inhabited Registry := ⟨empty⟩

instance : Membership String Registry := ⟨fun r text => text ∈ r.texts⟩

/-- Whether a text is in the registry. -/
def contains (r : Registry) (text : String) : Bool :=
  r.texts.contains text

/-- The number of texts. -/
def size (r : Registry) : Nat := r.texts.length

/-- Whether there are no texts. -/
def isEmpty (r : Registry) : Bool := r.texts.isEmpty

/-- Adds a text, unless it is there already. -/
def insert (r : Registry) (text : String) : Registry :=
  if h : text ∈ r.texts then r
  else
    { texts := r.texts ++ [text]
      nodup := by
        have hd : ∀ a ∈ r.texts, ¬ a = text := fun a ha he => h (he ▸ ha)
        simpa [List.nodup_append] using ⟨r.nodup, hd⟩ }

/-- Adds texts one after the other. -/
def insertAll (r : Registry) (texts : List String) : Registry :=
  texts.foldl insert r

/-- Whether two registries hold the same texts. -/
def sameTexts (r s : Registry) : Bool :=
  r.texts.all s.contains && s.texts.all r.contains

/-- The texts in the order of their bytes. -/
def sorted (r : Registry) : List String :=
  r.texts.mergeSort Text.byteLe

theorem mem_def {r : Registry} {text : String} : text ∈ r ↔ text ∈ r.texts := Iff.rfl

@[simp] theorem not_mem_empty (text : String) : ¬ text ∈ empty := by
  simp [mem_def, empty]

@[simp] theorem mem_insert {r : Registry} {text added : String} :
    text ∈ r.insert added ↔ text ∈ r ∨ text = added := by
  unfold insert
  split
  · rename_i h
    show text ∈ r ↔ text ∈ r ∨ text = added
    exact ⟨Or.inl, fun hm => hm.elim id fun he => he ▸ h⟩
  · simp [mem_def]

@[simp] theorem mem_insertAll {r : Registry} {text : String} {added : List String} :
    text ∈ r.insertAll added ↔ text ∈ r ∨ text ∈ added := by
  induction added generalizing r with
  | nil => simp [insertAll]
  | cons a rest ih =>
    show text ∈ (r.insert a).insertAll rest ↔ text ∈ r ∨ text ∈ a :: rest
    rw [ih, mem_insert, List.mem_cons, or_assoc]

@[simp] theorem contains_iff {r : Registry} {text : String} :
    r.contains text = true ↔ text ∈ r := by
  simp [contains, mem_def]

theorem mem_sorted {r : Registry} {text : String} : text ∈ r.sorted ↔ text ∈ r := by
  rw [sorted, List.mem_mergeSort, mem_def]

end Registry

end CallHarvest
