import AuruPm.FileRefs
import Mathlib.Data.List.Lex

/-!
# Traversal of XML trees

The iterator behind `XmlElement::descendants`, with its stack. Its calls give the elements of the
stacked trees in document order, which is the order of their addresses, and nothing after them.
-/

namespace AuruPm

set_option autoImplicit false

/-! The iterator. -/

/-- The top of the stack is its last element. -/
structure Descendants where
  stack : List XmlElement

namespace Descendants

/-- `XmlElement::descendants` -/
def ofRoot (root : XmlElement) : Descendants := ⟨[root]⟩

/-- `Iterator::next`, with the iterator that it leaves. -/
def next (d : Descendants) : Option XmlElement × Descendants :=
  match d.stack.getLast? with
  | none => (none, d)
  | some element => (some element, ⟨d.stack.dropLast ++ element.childElements.reverse⟩)

/-- After so many calls. -/
def after (d : Descendants) : Nat → Descendants
  | 0 => d
  | n + 1 => d.next.2.after n

/-- What the call after so many others gives. -/
def call (d : Descendants) (n : Nat) : Option XmlElement := (d.after n).next.1

end Descendants

/-! Addresses. -/

namespace XmlElement

/-- The element that is reached by positions among the children. -/
def at? : XmlElement → List Nat → Option XmlElement
  | element, [] => some element
  | element, i :: address =>
    (element.children[i]?.bind XmlContent.element?).bind fun child => child.at? address

mutual
/-- The elements of a tree with their addresses, in document order. -/
def addressed : XmlElement → List (List Nat × XmlElement)
  | .mk tag id attributes children =>
    ([], .mk tag id attributes children) :: contentAddressed 0 children
/-- The same for contents that stand from a position on. -/
def contentAddressed (i : Nat) : List XmlContent → List (List Nat × XmlElement)
  | [] => []
  | .element element :: rest =>
    (element.addressed.map fun e => (i :: e.1, e.2)) ++ contentAddressed (i + 1) rest
  | _ :: rest => contentAddressed (i + 1) rest
end

mutual
theorem addressed_map_snd (e : XmlElement) : e.addressed.map Prod.snd = e.descendants := by
  cases e with
  | mk tag id attributes children =>
    rw [addressed, descendants, List.map_cons, contentAddressed_map_snd]
theorem contentAddressed_map_snd (i : Nat) (contents : List XmlContent) :
    (contentAddressed i contents).map Prod.snd = contentDescendants contents := by
  cases contents with
  | nil => rfl
  | cons content rest =>
    cases content with
    | element e =>
      rw [contentAddressed, contentDescendants, List.map_append, List.map_map,
        ← addressed_map_snd e, ← contentAddressed_map_snd (i + 1) rest]
      rfl
    | text _ => exact contentAddressed_map_snd (i + 1) rest
    | cdata _ => exact contentAddressed_map_snd (i + 1) rest
    | comment _ => exact contentAddressed_map_snd (i + 1) rest
end

/-- A content at a position, or one further on. -/
theorem exists_position_cons {P : Nat → XmlElement → Prop} (content : XmlContent)
    (rest : List XmlContent) :
    (∃ j child, (content :: rest)[j]?.bind XmlContent.element? = some child ∧ P j child) ↔
      (∃ child, content.element? = some child ∧ P 0 child) ∨
        ∃ j child, rest[j]?.bind XmlContent.element? = some child ∧ P (j + 1) child := by
  constructor
  · rintro ⟨j, child, hchild, hp⟩
    cases j with
    | zero => exact Or.inl ⟨child, hchild, hp⟩
    | succ j => exact Or.inr ⟨j, child, hchild, hp⟩
  · rintro (⟨child, hchild, hp⟩ | ⟨j, child, hchild, hp⟩)
    · exact ⟨0, child, hchild, hp⟩
    · exact ⟨j + 1, child, hchild, hp⟩

mutual
theorem mem_addressed_iff (e : XmlElement) (address : List Nat) (d : XmlElement) :
    (address, d) ∈ e.addressed ↔ e.at? address = some d := by
  cases e with
  | mk tag id attributes children =>
    rw [addressed, List.mem_cons, mem_contentAddressed_iff]
    cases address with
    | nil => simp [at?, eq_comm]
    | cons i address =>
      simp [at?, XmlElement.children, Option.bind_eq_some_iff]
theorem mem_contentAddressed_iff (i : Nat) (contents : List XmlContent) (address : List Nat)
    (d : XmlElement) :
    (address, d) ∈ contentAddressed i contents ↔
      ∃ j child, contents[j]?.bind XmlContent.element? = some child ∧
        ∃ below, address = (i + j) :: below ∧ child.at? below = some d := by
  cases contents with
  | nil => simp [contentAddressed]
  | cons content rest =>
    rw [exists_position_cons]
    have hrest := mem_contentAddressed_iff (i + 1) rest address d
    simp only [Nat.add_assoc, Nat.add_comm 1] at hrest
    cases content with
    | element e =>
      rw [contentAddressed, List.mem_append, hrest]
      refine or_congr ?_ Iff.rfl
      simp only [List.mem_map, Prod.mk.injEq, Prod.exists, XmlContent.element?, Option.some.injEq,
        exists_eq_left', Nat.add_zero]
      constructor
      · rintro ⟨below, _, hmem, hbelow, rfl⟩
        exact ⟨below, hbelow.symm, (mem_addressed_iff e below _).mp hmem⟩
      · rintro ⟨below, hbelow, hat⟩
        exact ⟨below, d, (mem_addressed_iff e below d).mpr hat, hbelow.symm, rfl⟩
    | text _ => simp [contentAddressed, XmlContent.element?, hrest]
    | cdata _ => simp [contentAddressed, XmlContent.element?, hrest]
    | comment _ => simp [contentAddressed, XmlContent.element?, hrest]
end

/-- The addresses of contents start at their positions. -/
theorem position_le {i : Nat} {contents : List XmlContent} {e : List Nat × XmlElement}
    (h : e ∈ contentAddressed i contents) : ∃ k below, i ≤ k ∧ e.1 = k :: below := by
  obtain ⟨j, _, _, below, haddress, _⟩ := (mem_contentAddressed_iff i contents e.1 e.2).mp h
  exact ⟨i + j, below, Nat.le_add_right i j, haddress⟩

mutual
theorem pairwise_addressed (e : XmlElement) : e.addressed.Pairwise fun a b => a.1 < b.1 := by
  cases e with
  | mk tag id attributes children =>
    rw [addressed]
    refine List.pairwise_cons.mpr ⟨?_, pairwise_contentAddressed 0 children⟩
    intro b hb
    obtain ⟨k, below, _, haddress⟩ := position_le hb
    rw [haddress]
    exact List.nil_lt_cons k below
theorem pairwise_contentAddressed (i : Nat) (contents : List XmlContent) :
    (contentAddressed i contents).Pairwise fun a b => a.1 < b.1 := by
  cases contents with
  | nil => exact List.Pairwise.nil
  | cons content rest =>
    have hrest := pairwise_contentAddressed (i + 1) rest
    cases content with
    | element e =>
      rw [contentAddressed, List.pairwise_append]
      refine ⟨?_, hrest, ?_⟩
      · rw [List.pairwise_map]
        refine (pairwise_addressed e).imp ?_
        intro a b hab
        exact List.cons_lt_cons_iff.mpr (Or.inr ⟨rfl, hab⟩)
      · intro a ha b hb
        obtain ⟨a, _, rfl⟩ := List.mem_map.mp ha
        obtain ⟨k, below, hk, haddress⟩ := position_le hb
        rw [haddress]
        exact List.cons_lt_cons_iff.mpr (Or.inl hk)
    | text _ => exact hrest
    | cdata _ => exact hrest
    | comment _ => exact hrest
end

theorem contentDescendants_eq (contents : List XmlContent) :
    contentDescendants contents =
      (contents.filterMap XmlContent.element?).flatMap descendants := by
  induction contents with
  | nil => rfl
  | cons content rest ih =>
    cases content with
    | element e =>
      rw [contentDescendants, ih]
      rfl
    | text _ => exact ih
    | cdata _ => exact ih
    | comment _ => exact ih

theorem descendants_eq (e : XmlElement) :
    e.descendants = e :: e.childElements.flatMap descendants := by
  cases e with
  | mk tag id attributes children => rw [descendants, contentDescendants_eq]; rfl

end XmlElement

namespace Descendants

/-- What is still to come: the stacked trees, from the top. -/
def pending (d : Descendants) : List XmlElement := d.stack.reverse.flatMap XmlElement.descendants

/-- A call gives the first element that is to come and leaves the others. -/
theorem next_spec (d : Descendants) :
    d.next.1 = d.pending.head? ∧ d.next.2.pending = d.pending.tail := by
  obtain ⟨stack⟩ := d
  rcases List.eq_nil_or_concat stack with rfl | ⟨below, element, rfl⟩
  · exact ⟨rfl, rfl⟩
  · have hpending : pending ⟨below ++ [element]⟩ =
        element :: (element.childElements.flatMap XmlElement.descendants ++
          below.reverse.flatMap XmlElement.descendants) := by
      rw [pending, List.reverse_append, List.reverse_singleton, List.singleton_append,
        List.flatMap_cons, XmlElement.descendants_eq]
      rfl
    have hnext : next ⟨below ++ [element]⟩ =
        (some element, ⟨below ++ element.childElements.reverse⟩) := by
      simp [next]
    rw [List.concat_eq_append, hpending, hnext]
    refine ⟨rfl, ?_⟩
    rw [pending, List.reverse_append, List.reverse_reverse, List.flatMap_append]
    rfl

theorem call_eq (d : Descendants) (n : Nat) : d.call n = d.pending[n]? := by
  induction n generalizing d with
  | zero => rw [call, after, d.next_spec.1, List.head?_eq_getElem?]
  | succ n ih =>
    have hcall : d.call (n + 1) = d.next.2.call n := rfl
    rw [hcall, ih, d.next_spec.2, List.getElem?_tail]

/-- The calls give every element once, in the order of the addresses, and then nothing for ever. -/
theorem descendants_visit (root : XmlElement) :
    ∃ visits : List (List Nat × XmlElement),
      (visits.Pairwise fun a b => a.1 < b.1) ∧
      (∀ address element, (address, element) ∈ visits ↔ root.at? address = some element) ∧
      (∀ n (h : n < visits.length), (ofRoot root).call n = some visits[n].2) ∧
      ∀ n, visits.length ≤ n → (ofRoot root).call n = none := by
  refine ⟨root.addressed, root.pairwise_addressed, root.mem_addressed_iff, ?_⟩
  have hcall : ∀ n, (ofRoot root).call n = (root.addressed[n]?).map Prod.snd := by
    intro n
    have hpending : (ofRoot root).pending = root.descendants := by
      rw [pending, ofRoot, List.reverse_singleton, List.flatMap_singleton]
    rw [call_eq, hpending, ← root.addressed_map_snd, List.getElem?_map]
  constructor
  · intro n hn
    rw [hcall, List.getElem?_eq_getElem hn, Option.map_some]
  · intro n hn
    rw [hcall, List.getElem?_eq_none hn, Option.map_none]

end Descendants

end AuruPm
