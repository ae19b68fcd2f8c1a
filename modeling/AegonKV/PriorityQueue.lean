import Mathlib.Data.List.Sort

/-!
# Heaps in a vector

`std::push_heap`, `std::pop_heap` and the `std::priority_queue` over them. Which of several greatest
elements comes to the top is left to the implementation, so the two algorithms are parameters that
satisfy their specification. What is greater may change between two calls, as long as it does not
for the elements in the heap.
-/

namespace PriorityQueue

variable {α : Type*} {less less' : α → α → Bool}

structure StrictWeakOrder (less : α → α → Bool) : Prop where
  irrefl : ∀ a, less a a = false
  negTrans : ∀ {a b l}, less a b = false → less b l = false → less a l = false
  asymm : ∀ {a b}, less a b = true → less b a = false

/-- No element is greater than its parent. -/
def IsHeap (less : α → α → Bool) (l : List α) : Prop :=
  ∀ i x y, 0 < i → l[i]? = some x → l[(i - 1) / 2]? = some y → less y x = false

theorem isHeap_nil : IsHeap less [] := by
  intro i x y _ hx
  cases hx

/-- A heap does not depend on how elements compare that are not in it. -/
theorem IsHeap.congr {l : List α} (h : IsHeap less l)
    (hsame : ∀ x ∈ l, ∀ y ∈ l, less' y x = less y x) : IsHeap less' l := by
  intro i x y hpos hx hy
  rw [hsame x (List.mem_of_getElem? hx) y (List.mem_of_getElem? hy)]
  exact h i x y hpos hx hy

/-- No element is greater than the first one. -/
theorem IsHeap.top (hless : StrictWeakOrder less) {top : α} {l : List α}
    (h : IsHeap less (top :: l)) {x : α} (hx : x ∈ top :: l) : less top x = false := by
  obtain ⟨i, hi⟩ := List.mem_iff_getElem?.mp hx
  clear hx
  induction i using Nat.strongRecOn generalizing x with
  | ind i ih =>
      rcases Nat.eq_zero_or_pos i with rfl | hpos
      · obtain rfl : top = x := Option.some.inj hi
        exact hless.irrefl top
      · have hlt : (i - 1) / 2 < (top :: l).length := by
          have hlen := (List.getElem?_eq_some_iff.mp hi).1
          omega
        have hparent := List.getElem?_eq_getElem hlt
        exact hless.negTrans (ih ((i - 1) / 2) (by omega) hparent) (h i x _ hpos hi hparent)

/-- A sorted list is a heap. -/
theorem isHeap_of_pairwise {l : List α} (h : l.Pairwise fun a b => less a b = false) :
    IsHeap less l := by
  intro i x y hpos hx hy
  obtain ⟨hi, rfl⟩ := List.getElem?_eq_some_iff.mp hx
  obtain ⟨hj, rfl⟩ := List.getElem?_eq_some_iff.mp hy
  exact List.pairwise_iff_getElem.mp h _ _ hj hi (by omega)

/-- `push_heap` takes in the last element, `pop_heap` moves the first one to the end. -/
structure HeapAlgorithms (α : Type*) where
  pushHeap : (α → α → Bool) → List α → List α
  popHeap : (α → α → Bool) → List α → List α
  pushHeap_spec : ∀ {less}, StrictWeakOrder less → ∀ {l x}, IsHeap less l →
    (pushHeap less (l ++ [x])).Perm (l ++ [x]) ∧ IsHeap less (pushHeap less (l ++ [x]))
  popHeap_spec : ∀ {less}, StrictWeakOrder less → ∀ {top l}, IsHeap less (top :: l) →
    ∃ l', popHeap less (top :: l) = l' ++ [top] ∧ l'.Perm l ∧ IsHeap less l'

def push (A : HeapAlgorithms α) (less : α → α → Bool) (l : List α) (x : α) : List α :=
  A.pushHeap less (l ++ [x])

def pop (A : HeapAlgorithms α) (less : α → α → Bool) (l : List α) : List α :=
  (A.popHeap less l).dropLast

variable {A : HeapAlgorithms α}

theorem push_perm (hless : StrictWeakOrder less) {l : List α} (h : IsHeap less l) (x : α) :
    (push A less l x).Perm (x :: l) :=
  (A.pushHeap_spec hless h).1.trans (List.perm_append_singleton x l)

theorem IsHeap.push (hless : StrictWeakOrder less) {l : List α} (h : IsHeap less l) (x : α) :
    IsHeap less (push A less l x) := (A.pushHeap_spec hless h).2

theorem pop_perm (hless : StrictWeakOrder less) {top : α} {l : List α}
    (h : IsHeap less (top :: l)) : (pop A less (top :: l)).Perm l := by
  obtain ⟨l', hpop, hperm, -⟩ := A.popHeap_spec hless h
  rw [pop, hpop, List.dropLast_concat]
  exact hperm

theorem IsHeap.pop (hless : StrictWeakOrder less) {top : α} {l : List α}
    (h : IsHeap less (top :: l)) : IsHeap less (pop A less (top :: l)) := by
  obtain ⟨l', hpop, -, hheap⟩ := A.popHeap_spec hless h
  rw [PriorityQueue.pop, hpop, List.dropLast_concat]
  exact hheap

/-! ## An implementation -/

theorem pairwise_mergeSort (hless : StrictWeakOrder less) (l : List α) :
    (l.mergeSort fun a b => !less a b).Pairwise fun a b => less a b = false := by
  have htrans : ∀ a b l : α, (!less a b) = true → (!less b l) = true → (!less a l) = true := by
    intro a b l hab hbc
    rw [Bool.not_eq_true'] at hab hbc ⊢
    exact hless.negTrans hab hbc
  have htotal : ∀ a b : α, ((!less a b) || !less b a) = true := by
    intro a b
    cases hab : less a b with
    | false => rfl
    | true => rw [hless.asymm hab]; rfl
  refine (List.pairwise_mergeSort htrans htotal l).imp fun hle => ?_
  rwa [Bool.not_eq_true'] at hle

def sorting (α : Type*) : HeapAlgorithms α where
  pushHeap less l := l.mergeSort fun a b => !less a b
  popHeap less l := (l.drop 1).mergeSort (fun a b => !less a b) ++ l.take 1
  pushHeap_spec hless _ _ _ :=
    ⟨List.mergeSort_perm _ _, isHeap_of_pairwise (pairwise_mergeSort hless _)⟩
  popHeap_spec hless _ _ _ :=
    ⟨_, rfl, List.mergeSort_perm _ _, isHeap_of_pairwise (pairwise_mergeSort hless _)⟩

end PriorityQueue
