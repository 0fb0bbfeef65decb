import Formula.Proofs.Tree.Basic
import Formula.Proofs.Tree.Written

/-!
# Nodes of a tree

`Expr.nodes` lists a tree and all the trees inside of it. A fact about all nodes is one about the root and
about the nodes of each part (`forall_nodes_binary`, `forall_nodes_call`).

* `mem_nodesAll_iff_at?`: a function can reach all nodes of its arguments and nothing else.
* `Written.of_mem_nodes`: the nodes of a written tree are written, and the zeros of its negations.
-/

namespace Formula.Expr

mutual

/-- The nodes of a tree, its root first. -/
def nodes : Expr → List Expr
  | e@(number _ _) | e@(constant _ _) | e@(var _) => [e]
  | e@(binary _ left right) => e :: (left.nodes ++ right.nodes)
  | e@(call _ arguments) => e :: nodesAll arguments

/-- The nodes of arguments. -/
def nodesAll : List Expr → List Expr
  | [] => []
  | e :: rest => e.nodes ++ nodesAll rest

end

theorem mem_nodesAll {arguments : List Expr} {node : Expr} :
    node ∈ nodesAll arguments ↔ ∃ a ∈ arguments, node ∈ a.nodes := by
  induction arguments with
  | nil => simp [nodesAll]
  | cons a rest ih => simp [nodesAll, ih]

theorem mem_nodes_self (e : Expr) : e ∈ e.nodes := by
  cases e <;> simp [nodes]

theorem nodes_eq_cons (e : Expr) : e.nodes = e :: nodesAll e.parts := by
  cases e <;> simp [nodes, nodesAll, parts]

theorem mem_nodesAll_of_mem {arguments : List Expr} {a : Expr} (ha : a ∈ arguments) :
    a ∈ nodesAll arguments := mem_nodesAll.2 ⟨a, ha, mem_nodes_self a⟩

/-- The nodes of a node are nodes of the whole. -/
theorem mem_nodes_trans {e node inner : Expr} (hnode : node ∈ e.nodes) (hinner : inner ∈ node.nodes) :
    inner ∈ e.nodes := by
  induction e using inductParts with
  | h e ih =>
    rw [nodes_eq_cons] at hnode
    rcases List.mem_cons.1 hnode with rfl | hbelow
    · exact hinner
    · obtain ⟨part, hpart, hnode⟩ := mem_nodesAll.1 hbelow
      rw [nodes_eq_cons]
      exact List.mem_cons_of_mem _ (mem_nodesAll.2 ⟨part, hpart, ih part hpart hnode⟩)

/-- A path that leads to a tree can be followed to all nodes of the tree. -/
theorem exists_at?_cons {e node : Expr} (hnode : node ∈ e.nodes) {row : List Expr} {index : Nat}
    (he : row[index]? = some e) : ∃ path, at? row (index :: path) = some node := by
  induction e using inductParts generalizing row index with
  | h e ih =>
    rw [nodes_eq_cons] at hnode
    rcases List.mem_cons.1 hnode with rfl | hinner
    · exact ⟨[], he⟩
    · obtain ⟨part, hpart, hnode⟩ := mem_nodesAll.1 hinner
      obtain ⟨next, hnext⟩ := List.getElem?_of_mem hpart
      obtain ⟨path, hpath⟩ := ih part hpart hnode hnext
      exact ⟨next :: path, by rw [at?, he]; exact hpath⟩

/-- **The nodes of arguments are what stands at their paths.** -/
theorem mem_nodesAll_iff_at? {arguments : List Expr} {node : Expr} :
    node ∈ nodesAll arguments ↔ ∃ path, at? arguments path = some node := by
  constructor
  · intro hnode
    obtain ⟨a, ha, hnode⟩ := mem_nodesAll.1 hnode
    obtain ⟨index, hindex⟩ := List.getElem?_of_mem ha
    obtain ⟨path, hpath⟩ := exists_at?_cons hnode hindex
    exact ⟨_, hpath⟩
  · rintro ⟨path, hpath⟩
    refine forall_at? (P := (· ∈ nodesAll arguments)) (fun e he part hpart => ?_) (fun a ha => ?_) hpath
    · obtain ⟨a, ha, he⟩ := mem_nodesAll.1 he
      have hinner : part ∈ e.nodes := by
        rw [nodes_eq_cons]
        exact List.mem_cons_of_mem _ (mem_nodesAll_of_mem hpart)
      exact mem_nodesAll.2 ⟨a, ha, mem_nodes_trans he hinner⟩
    · exact mem_nodesAll_of_mem ha

theorem forall_nodes_binary {P : Expr → Prop} {symbol : Char} {left right : Expr} :
    (∀ node ∈ (binary symbol left right).nodes, P node) ↔
      P (binary symbol left right) ∧ (∀ node ∈ left.nodes, P node) ∧
        ∀ node ∈ right.nodes, P node := by
  rw [nodes, List.forall_mem_cons, List.forall_mem_append]

theorem forall_nodes_call {P : Expr → Prop} {name : String} {arguments : List Expr} :
    (∀ node ∈ (call name arguments).nodes, P node) ↔
      P (call name arguments) ∧ ∀ a ∈ arguments, ∀ node ∈ a.nodes, P node := by
  simp only [nodes, List.forall_mem_cons, mem_nodesAll]
  constructor
  · rintro ⟨hroot, h⟩
    exact ⟨hroot, fun a ha node hnode => h node ⟨a, ha, hnode⟩⟩
  · rintro ⟨hroot, h⟩
    exact ⟨hroot, fun node ⟨a, ha, hnode⟩ => h a ha node hnode⟩

variable {registry : Registry}

/-- **Every node of a written tree is written, or the zero of a negation.** -/
theorem Written.of_mem_nodes {e : Expr} (h : Written registry e) :
    ∀ node ∈ e.nodes, Written registry node ∨ node = .number 0.0 "" := by
  induction h with
  | number htext hvalue => exact List.forall_mem_singleton.2 (.inl (.number htext hvalue))
  | constant hfound => exact List.forall_mem_singleton.2 (.inl (.constant hfound))
  | var name => exact List.forall_mem_singleton.2 (.inl (.var name))
  | negation hoperand ih =>
    exact forall_nodes_binary.2
      ⟨.inl hoperand.negation, List.forall_mem_singleton.2 (.inr rfl), ih⟩
  | binary hop hleft hright ihleft ihright =>
    exact forall_nodes_binary.2 ⟨.inl (.binary hop hleft hright), ihleft, ihright⟩
  | call hfunction harity hall ih =>
    exact forall_nodes_call.2 ⟨.inl (.call hfunction harity hall), ih⟩

/-- **The left operand of a written operator is written**, or it is the zero of a negation. -/
theorem Written.left {symbol : Char} {left right : Expr}
    (h : Written registry (.binary symbol left right)) :
    Written registry left ∨ left = .number 0.0 "" := by
  cases h with
  | negation => exact .inr rfl
  | binary _ hleft _ => exact .inl hleft

end Formula.Expr
