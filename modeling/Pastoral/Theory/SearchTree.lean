import Mathlib.Data.Tree.Basic
import Mathlib.Data.List.Basic

/-!
# Binary search trees with a stopping test

Trees whose nodes are ordered by a key that need not be unique.

## Main definitions

* `insert`: on the right of the elements of its key
* `search`: down by the key, to the first element of the path that passes a test

## Main results

* `search_complete`: when a search finds the only element that passes
-/

namespace SearchTree

variable {α : Type*} (key : α → ℕ)

def inorder : BinaryTree α → List α
  | .nil => []
  | .node x l r => inorder l ++ x :: inorder r

def insert (x : α) : BinaryTree α → BinaryTree α
  | .nil => .node x .nil .nil
  | .node y l r => if key x < key y then .node y (insert x l) r else .node y l (insert x r)

/-- The first element on the path of `a` that passes `stop`. -/
def search (stop : α → Bool) (a : ℕ) : BinaryTree α → Option α
  | .nil => none
  | .node x l r =>
    if stop x then some x else if a < key x then search stop a l else search stop a r

/-- The elements at which the path of `a` arrives. -/
def path (a : ℕ) : BinaryTree α → List α
  | .nil => []
  | .node x l r => x :: if a < key x then path a l else path a r

/-- **The search order**: smaller keys are on the left of a node, and the others on its right. -/
def Ordered : BinaryTree α → Prop
  | .nil => True
  | .node x l r =>
    (∀ y ∈ inorder l, key y < key x) ∧ (∀ y ∈ inorder r, key x ≤ key y) ∧ Ordered l ∧ Ordered r

@[simp] theorem inorder_nil : inorder (.nil : BinaryTree α) = [] := rfl

@[simp] theorem inorder_node (x : α) (l r : BinaryTree α) :
    inorder (.node x l r) = inorder l ++ x :: inorder r := rfl

variable {key}

variable {x : α} {t : BinaryTree α} {stop : α → Bool} {a : ℕ}

/-- **Insertion adds one element.** -/
theorem mem_inorder_insert {y : α} :
    y ∈ inorder (insert key x t) ↔ y = x ∨ y ∈ inorder t := by
  induction t with
  | nil => simp [insert]
  | node z l r ihl ihr =>
    rw [insert]
    split_ifs
    · simp only [inorder_node, List.mem_append, ihl, or_assoc]
    · simp only [inorder_node, List.mem_append, List.mem_cons]
      tauto

/-- **What a search finds** is an element that passes the test. -/
theorem search_spec
    (h : search key stop a t = some x) : x ∈ inorder t ∧ stop x = true := by
  induction t with
  | nil => simp [search] at h
  | node y l r ihl ihr =>
    rw [search] at h
    split_ifs at h with hstop hlt
    · cases h
      exact ⟨by simp, hstop⟩
    · exact ⟨by simp [(ihl h).1], (ihl h).2⟩
    · exact ⟨by simp [(ihr h).1], (ihr h).2⟩

/-- **A search looks at its path.** -/
theorem search_eq_find? (stop : α → Bool) (a : ℕ) (t : BinaryTree α) :
    search key stop a t = (path key a t).find? stop := by
  induction t with
  | nil => rfl
  | node x l r ihl ihr =>
    rw [search, path]
    by_cases hstop : stop x
    · rw [if_pos hstop, List.find?_cons_of_pos hstop]
    · rw [List.find?_cons_of_neg hstop]
      split_ifs
      · exact ihl
      · exact ihr

theorem mem_of_mem_path (hx : x ∈ path key a t) :
    x ∈ inorder t := by
  induction t with
  | nil => exact hx
  | node y l r ihl ihr =>
    rw [path, List.mem_cons] at hx
    rw [inorder_node, List.mem_append, List.mem_cons]
    rcases hx with rfl | hx
    · exact .inr (.inl rfl)
    · split_ifs at hx
      · exact .inl (ihl hx)
      · exact .inr (.inr (ihr hx))

/-- **An element is on the path of an address** if no key is between the two. -/
theorem mem_path (horder : Ordered key t) (hx : x ∈ inorder t)
    (hle : key x ≤ a) (habove : ∀ y ∈ inorder t, key x < key y → a < key y) :
    x ∈ path key a t := by
  induction t with
  | nil => exact hx
  | node y l r ihl ihr =>
    obtain ⟨hless, hmore, hl, hr⟩ := horder
    rw [inorder_node, List.mem_append, List.mem_cons] at hx
    rw [path, List.mem_cons]
    rcases hx with hx | rfl | hx
    · have hlt := habove y (by simp) (hless x hx)
      rw [if_pos hlt]
      exact .inr (ihl hl hx fun z hz => habove z (by simp [hz]))
    · exact .inl rfl
    · have hnot : ¬ a < key y := by
        have := hmore x hx
        omega
      rw [if_neg hnot]
      exact .inr (ihr hr hx fun z hz => habove z (by simp [hz]))

theorem search_insert_of_some {y : α}
    (h : search key stop a t = some y) : search key stop a (insert key x t) = some y := by
  induction t with
  | nil => simp [search] at h
  | node z l r ihl ihr =>
    rw [search] at h
    rw [insert]
    split_ifs at h with hstop hlt
    · split_ifs <;> rw [search, if_pos hstop, h]
    · split_ifs
      · rw [search, if_neg hstop, if_pos hlt, ihl h]
      · rw [search, if_neg hstop, if_pos hlt, h]
    · split_ifs
      · rw [search, if_neg hstop, if_neg hlt, h]
      · rw [search, if_neg hstop, if_neg hlt, ihr h]

theorem search_insert_last
    (hlast : ∀ y ∈ inorder t, key y ≤ key x) (hle : key x ≤ a) (hstop : stop x = true) :
    (search key stop a (insert key x t)).isSome := by
  induction t with
  | nil => simp [insert, search, hstop]
  | node y l r _ ihr =>
    have hy := hlast y (by simp)
    rw [insert, if_neg (by omega), search]
    split_ifs with hhere hlt
    · rfl
    · omega
    · exact ihr fun z hz => hlast z (by simp [hz])

theorem ordered_of_pairwise
    (hsorted : (inorder t).Pairwise fun y z => key y < key z) : Ordered key t := by
  induction t with
  | nil => trivial
  | node x l r ihl ihr =>
    rw [inorder_node, List.pairwise_append, List.pairwise_cons] at hsorted
    obtain ⟨hl, ⟨hxr, hr⟩, hlr⟩ := hsorted
    exact ⟨fun y hy => hlr y hy x (List.mem_cons_self ..), fun y hy => Nat.le_of_lt (hxr y hy),
      ihl hl, ihr hr⟩

/-- **A search of a sorted tree** finds the only element that passes the test, if the path of the
address goes there. -/
theorem search_complete
    (hsorted : (inorder t).Pairwise fun y z => key y < key z) (hx : x ∈ inorder t)
    (hstop : stop x = true) (hunique : ∀ y ∈ inorder t, stop y = true → y = x) (hle : key x ≤ a)
    (habove : ∀ y ∈ inorder t, key x < key y → a < key y) : search key stop a t = some x := by
  have hpath := mem_path (ordered_of_pairwise hsorted) hx hle habove
  rw [search_eq_find?]
  cases hfind : (path key a t).find? stop with
  | none => exact absurd hstop (List.find?_eq_none.mp hfind x hpath)
  | some y =>
    rw [hunique y (mem_of_mem_path (List.mem_of_find?_eq_some hfind)) (List.find?_some hfind)]

end SearchTree
