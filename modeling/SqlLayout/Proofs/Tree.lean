import SqlLayout.Node

/-!
# The parts of a tree

A node lies within another if it is the node itself or lies within one of its children.  What holds of
every part of a tree holds of the root and everywhere in each child.
-/

namespace SqlLayout.Node

def children : Node → List Node
  | call _ args _ _ => args
  | caseOf _ branches => branches
  | condition parts => parts
  | group items => items
  | subselect statements => statements
  | onClause _ parts => parts
  | valuesClause _ rows => rows.flatten
  | selectClause _ items => items
  | fromClause _ parts => parts
  | whereClause _ conditions => conditions
  | groupByClause items _ => items
  | havingClause _ conditions => conditions
  | orderByClause items => items
  | limitClause count offset _ => .term count :: (offset.map .term).toList
  | insertClause _ _ rows columns query =>
    (rows.map fun values ↦ values.2.flatten).getD [] ++ columns ++ query
  | _ => []

/-- `part.Within node` says that a part is the node or lies inside it, at any depth. -/
inductive Within : Node → Node → Prop
  | self (node : Node) : Within node node
  | child {part child node : Node} : child ∈ node.children → Within part child → Within part node

def Everywhere (motive : Node → Prop) (node : Node) : Prop :=
  ∀ part, part.Within node → motive part

variable {motive other : Node → Prop} {node : Node}

theorem everywhere_iff : node.Everywhere motive ↔
    motive node ∧ ∀ child ∈ node.children, child.Everywhere motive := by
  constructor
  · intro h
    exact ⟨h node (.self node), fun child hchild part hpart ↦ h part (.child hchild hpart)⟩
  · rintro ⟨hnode, hchildren⟩ part hpart
    cases hpart with
    | self => exact hnode
    | child hchild hpart => exact hchildren _ hchild part hpart

theorem everywhere_leaf (h : motive node) (hchildren : node.children = []) :
    node.Everywhere motive :=
  everywhere_iff.mpr ⟨h, by simp [hchildren]⟩

/-- A property that is handed on from a node to its children, as far as these pass a test that the whole
tree passes, holds everywhere. -/
theorem Everywhere.induction (h : node.Everywhere other) (hnode : motive node)
    (hstep : ∀ node, other node → motive node → ∀ child ∈ node.children, motive child) :
    node.Everywhere motive := by
  intro part hpart
  induction hpart with
  | self => exact hnode
  | @child child node hchild _ ih =>
    have hother := (everywhere_iff.mp h).1
    exact ih ((everywhere_iff.mp h).2 child hchild) (hstep node hother hnode child hchild)

/-- Whether every part of a tree passes a test, where the tree has fewer levels than `depth`. -/
def allTo (test : Node → Bool) : (depth : Nat) → Node → Bool
  | 0, _ => false
  | depth + 1, node => test node && node.children.all (allTo test depth)

theorem everywhere_of_allTo {test : Node → Bool} (depth : Nat) (h : allTo test depth node = true) :
    node.Everywhere (test · = true) := by
  induction depth generalizing node with
  | zero => cases h
  | succ depth ih =>
    simp only [allTo, Bool.and_eq_true, List.all_eq_true] at h
    exact everywhere_iff.mpr ⟨h.1, fun child hchild ↦ ih (h.2 child hchild)⟩

end SqlLayout.Node
