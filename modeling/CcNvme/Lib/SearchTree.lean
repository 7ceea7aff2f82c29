/-
CcNvme/Lib/SearchTree.lean

Binary search trees, with the order read off the in-order list.

A search goes left or right at every node and may stop at one (`Turn`).  What it finds depends
on the list only, not on the shape of the tree: if the position searched for lies to the right of
the nodes before some point of the list and to the left of those after it (`Ordered`), a search
that reaches a leaf has visited the two nodes beside that point (`find_eq_none`), and the last
node a search visits is one of them (`last_eq_some`).  Rebalancing is any function that keeps the
list (`Balancer`).
-/
import Mathlib.Data.Tree.Basic
import Mathlib.Data.List.Basic

namespace SearchTree

variable {α : Type*}

def inorder : BinaryTree α → List α
  | .nil => []
  | .node a l r => inorder l ++ a :: inorder r

@[simp] theorem inorder_nil : inorder (.nil : BinaryTree α) = [] := rfl

@[simp] theorem inorder_node (a : α) (l r : BinaryTree α) :
    inorder (.node a l r) = inorder l ++ a :: inorder r := rfl

@[simp] theorem inorder_map {β : Type*} (f : α → β) (t : BinaryTree α) :
    inorder (t.map f) = (inorder t).map f := by
  induction t with
  | nil => rfl
  | node a l r hl hr => simp [BinaryTree.map, hl, hr]

/-- The tree that is a list. -/
def ofList : List α → BinaryTree α
  | [] => .nil
  | a :: l => .node a .nil (ofList l)

@[simp] theorem inorder_ofList (l : List α) : inorder (ofList l) = l := by
  induction l with
  | nil => rfl
  | cons a l ih => simp [ofList, ih]

/-- What a search does at a node. -/
inductive Turn where
  | left
  | right
  | stop
  deriving DecidableEq, Repr

/-- The node at which a search stops, if it does not reach a leaf. -/
def find (turn : α → Turn) : BinaryTree α → Option α
  | .nil => none
  | .node a l r =>
      match turn a with
      | .left => find turn l
      | .right => find turn r
      | .stop => some a

/-- The last node that a search visits. -/
def last (turn : α → Turn) : BinaryTree α → Option α → Option α
  | .nil, seen => seen
  | .node a l r, _ =>
      match turn a with
      | .left => last turn l (some a)
      | .right => last turn r (some a)
      | .stop => some a

/-- The nodes that a search visits. -/
def path (turn : α → Turn) : BinaryTree α → List α
  | .nil => []
  | .node a l r =>
      match turn a with
      | .left => a :: path turn l
      | .right => a :: path turn r
      | .stop => [a]

/-- A new node is put at the leaf that a search reaches. -/
def link (turn : α → Turn) (x : α) : BinaryTree α → BinaryTree α
  | .nil => .node x .nil .nil
  | .node a l r =>
      match turn a with
      | .left => .node a (link turn x l) r
      | .right => .node a l (link turn x r)
      | .stop => .node a l r

/-- Rebalancing after a node was linked, and the removal of nodes with their rebalancing. -/
structure Balancer (α : Type*) where
  insertColor : BinaryTree α → BinaryTree α
  erase : (α → Bool) → BinaryTree α → BinaryTree α
  inorder_insertColor : ∀ t, inorder (insertColor t) = inorder t
  inorder_erase : ∀ p t, inorder (erase p t) = (inorder t).filter fun a => !p a

/-- A tree that is never rebalanced. -/
def Balancer.plain (α : Type*) : Balancer α where
  insertColor := id
  erase p t := ofList ((inorder t).filter fun a => !p a)
  inorder_insertColor _ := rfl
  inorder_erase _ _ := inorder_ofList _

/-! ### Searching an ordered tree -/

section Ordered

/-- Where the position lies, seen from a node: to its left, to its right, or within it.  A
position that is not to the right of a node is to the left of all later ones. -/
def Ordered (side : α → Turn) (l : List α) : Prop :=
  l.Pairwise fun a b => side a ≠ .right → side b = .left

variable {side turn : α → Turn} {t : BinaryTree α} {a : α}

theorem find_eq_some (h : find turn t = some a) : a ∈ inorder t ∧ turn a = .stop := by
  induction t with
  | nil => cases h
  | node b l r hl hr =>
      rw [inorder_node, List.mem_append, List.mem_cons]
      rcases hb : turn b with - | - | - <;> simp only [find, hb] at h
      · exact ⟨Or.inl (hl h).1, (hl h).2⟩
      · exact ⟨Or.inr (Or.inr (hr h).1), (hr h).2⟩
      · obtain rfl := Option.some.inj h
        exact ⟨Or.inr (Or.inl rfl), hb⟩

theorem mem_inorder_of_mem_path (h : a ∈ path turn t) : a ∈ inorder t := by
  induction t with
  | nil => cases h
  | node b l r hl hr =>
      rw [inorder_node, List.mem_append, List.mem_cons]
      rcases hb : turn b with - | - | - <;> simp only [path, hb, List.mem_cons] at h
      · exact h.elim (fun h => Or.inr (Or.inl h)) fun h => Or.inl (hl h)
      · exact h.elim (fun h => Or.inr (Or.inl h)) fun h => Or.inr (Or.inr (hr h))
      · exact Or.inr (Or.inl (h.resolve_right List.not_mem_nil))

theorem Ordered.left {b : α} {l r : BinaryTree α} (h : Ordered side (inorder (.node b l r))) :
    Ordered side (inorder l) :=
  (List.pairwise_append.mp h).1

theorem Ordered.right {b : α} {l r : BinaryTree α} (h : Ordered side (inorder (.node b l r))) :
    Ordered side (inorder r) :=
  (List.pairwise_cons.mp (List.pairwise_append.mp h).2.1).2

/-- Everything after a node that the position is not to the right of. -/
theorem Ordered.after {b : α} {l r : BinaryTree α} (h : Ordered side (inorder (.node b l r)))
    (hb : side b ≠ .right) {x : α} (hx : x ∈ inorder r) : side x = .left :=
  (List.pairwise_cons.mp (List.pairwise_append.mp h).2.1).1 x hx hb

/-- Everything before a node that the position is not to the left of. -/
theorem Ordered.before {b : α} {l r : BinaryTree α} (h : Ordered side (inorder (.node b l r)))
    (hb : side b ≠ .left) {x : α} (hx : x ∈ inorder l) : side x = .right := by
  by_contra hne
  exact hb ((List.pairwise_append.mp h).2.2 x hx b List.mem_cons_self hne)

/-- **A search that reaches a leaf.**  It may have stopped early at nodes that it did not meet;
the two nodes beside the leaf are among those it met. -/
theorem find_eq_none (hturn : ∀ a, turn a ≠ .stop → side a = turn a)
    (hord : Ordered side (inorder t)) (h : find turn t = none) :
    ∃ pre post, inorder t = pre ++ post ∧ (∀ a ∈ pre, side a = .right) ∧
      (∀ a ∈ post, side a = .left) ∧ (∀ a ∈ pre.getLast?, turn a = .right) ∧
      (∀ a ∈ post.head?, turn a = .left) ∧
      ∀ x, inorder (link turn x t) = pre ++ x :: post := by
  induction t with
  | nil => exact ⟨[], [], rfl, by simp, by simp, by simp, by simp, fun x => rfl⟩
  | node b l r hl hr =>
      rcases hb : turn b with - | - | - <;> simp only [find, hb] at h
      · have hside : side b = .left := by rw [hturn b (by rw [hb]; decide), hb]
        obtain ⟨pre, post, heq, hpre, hpost, hlast, hhead, hlink⟩ := hl hord.left h
        refine ⟨pre, post ++ b :: inorder r, by simp [heq], hpre, ?_, hlast, ?_, ?_⟩
        · intro a ha
          rcases List.mem_append.mp ha with ha | ha
          · exact hpost a ha
          · rcases List.mem_cons.mp ha with rfl | ha
            · exact hside
            · exact hord.after (by rw [hside]; decide) ha
        · intro a ha
          cases post with
          | nil =>
              obtain rfl := Option.some.inj ha
              exact hb
          | cons c post => exact hhead a ha
        · intro x
          simp only [link, hb, inorder_node, hlink]
          simp
      · have hside : side b = .right := by rw [hturn b (by rw [hb]; decide), hb]
        obtain ⟨pre, post, heq, hpre, hpost, hlast, hhead, hlink⟩ := hr hord.right h
        refine ⟨inorder l ++ b :: pre, post, by simp [heq], ?_, hpost, ?_, hhead, ?_⟩
        · intro a ha
          rcases List.mem_append.mp ha with ha | ha
          · exact hord.before (by rw [hside]; decide) ha
          · rcases List.mem_cons.mp ha with rfl | ha
            · exact hside
            · exact hpre a ha
        · intro a ha
          rw [List.getLast?_append_cons, List.getLast?_cons] at ha
          cases hp : pre.getLast? with
          | none =>
              rw [hp] at ha
              obtain rfl := Option.some.inj ha
              exact hb
          | some c =>
              rw [hp] at ha
              obtain rfl := Option.some.inj ha
              exact hlast c hp
        · intro x
          simp only [link, hb, inorder_node, hlink]
          simp
      · cases h

/-- A search that stops exactly at the position finds it or shows that it is nowhere. -/
theorem find_side_eq_none (hord : Ordered side (inorder t)) (h : find side t = none) :
    ∀ a ∈ inorder t, side a ≠ .stop := by
  obtain ⟨pre, post, heq, hpre, hpost, -⟩ := find_eq_none (fun _ _ => rfl) hord h
  intro a ha
  rw [heq] at ha
  rcases List.mem_append.mp ha with ha | ha
  · rw [hpre a ha]
    decide
  · rw [hpost a ha]
    decide

theorem last_cases (hord : Ordered side (inorder t)) {seen : Option α}
    (h : last side t seen = some a) :
    (t = .nil ∧ seen = some a) ∨
      ∃ pre post, inorder t = pre ++ a :: post ∧ (∀ x ∈ pre, side x = .right) ∧
        ∀ x ∈ post, side x = .left := by
  induction t generalizing seen with
  | nil => exact Or.inl ⟨rfl, h⟩
  | node b l r hl hr =>
      refine Or.inr ?_
      rcases hb : side b with - | - | - <;> simp only [last, hb] at h
      · have hafter : ∀ x ∈ inorder r, side x = .left := fun x =>
          hord.after (by rw [hb]; decide)
        rcases hl hord.left h with ⟨rfl, hseen⟩ | ⟨pre, post, heq, hpre, hpost⟩
        · obtain rfl := Option.some.inj hseen
          exact ⟨[], inorder r, rfl, by simp, hafter⟩
        · refine ⟨pre, post ++ b :: inorder r, by simp [heq], hpre, fun x hx => ?_⟩
          rcases List.mem_append.mp hx with hx | hx
          · exact hpost x hx
          · rcases List.mem_cons.mp hx with rfl | hx
            · exact hb
            · exact hafter x hx
      · have hbefore : ∀ x ∈ inorder l, side x = .right := fun x =>
          hord.before (by rw [hb]; decide)
        rcases hr hord.right h with ⟨rfl, hseen⟩ | ⟨pre, post, heq, hpre, hpost⟩
        · obtain rfl := Option.some.inj hseen
          exact ⟨inorder l, [], rfl, hbefore, by simp⟩
        · refine ⟨inorder l ++ b :: pre, post, by simp [heq], fun x hx => ?_, hpost⟩
          rcases List.mem_append.mp hx with hx | hx
          · exact hbefore x hx
          · rcases List.mem_cons.mp hx with rfl | hx
            · exact hb
            · exact hpre x hx
      · obtain rfl := Option.some.inj h
        exact ⟨inorder l, inorder r, rfl, fun x => hord.before (by rw [hb]; decide), fun x =>
          hord.after (by rw [hb]; decide)⟩

/-- **The last node visited** separates the nodes before the position from those after it. -/
theorem last_eq_some (hord : Ordered side (inorder t)) (h : last side t none = some a) :
    ∃ pre post, inorder t = pre ++ a :: post ∧ (∀ x ∈ pre, side x = .right) ∧
      ∀ x ∈ post, side x = .left := by
  rcases last_cases hord h with ⟨-, h⟩ | h
  · cases h
  · exact h

theorem last_eq_none {seen : Option α} (h : last side t seen = none) : t = .nil := by
  induction t generalizing seen with
  | nil => rfl
  | node b l r hl hr =>
      rcases hb : side b with - | - | - <;> simp only [last, hb] at h
      · rw [hl h] at h
        cases h
      · rw [hr h] at h
        cases h
      · cases h

end Ordered

/-! ### Neighbours in the list -/

section Neighbours

variable {p : α → Bool} {a : α} {pre post : List α}

/-- The nodes from the first one that meets `p` on. -/
def tail (p : α → Bool) (l : List α) : List α := l.dropWhile fun a => !p a

/-- The node after it. -/
def next (p : α → Bool) (l : List α) : Option α := (tail p l).tail.head?

/-- The node before it. -/
def prev (p : α → Bool) (l : List α) : Option α := (l.takeWhile fun a => !p a).getLast?

theorem tail_eq (hpre : ∀ x ∈ pre, p x = false) (ha : p a = true) :
    tail p (pre ++ a :: post) = a :: post := by
  rw [tail, List.dropWhile_append_of_pos fun x hx => by simp [hpre x hx]]
  simp [ha]

theorem next_eq (hpre : ∀ x ∈ pre, p x = false) (ha : p a = true) :
    next p (pre ++ a :: post) = post.head? := by
  rw [next, tail_eq hpre ha]
  rfl

theorem prev_eq (hpre : ∀ x ∈ pre, p x = false) (ha : p a = true) :
    prev p (pre ++ a :: post) = pre.getLast? := by
  rw [prev, List.takeWhile_append_of_pos fun x hx => by simp [hpre x hx]]
  simp [ha]

end Neighbours

end SearchTree
