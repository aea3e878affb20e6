import Mathlib.Tactic.SplitIfs
import Bindery.Decorator
import Bindery.TypeShape

/-!
# Trees that are read alike

A source file is no part of a declaration, so that declarations are read without regard to the
statements that stand around them.

* `Tree.ReadsAs`: two trees that differ in the statements of source files.
* `Tree.ReadsAs.text`, …, `Tree.ReadsAs.ofNode?`: whatever is read off a node is the same.
* `Tree.reorder`: the tree with its statements in another order.
* **`Tree.readsAs_reorder`**: it is read alike.
-/

namespace Bindery

namespace Tree

variable {t t' : Tree}

/-- **Two trees with the same source and the same nodes**, but for source files, whose statements may
differ. -/
structure ReadsAs (t t' : Tree) : Prop where
  source : t.source = t'.source
  size : t.size = t'.size
  node : ∀ i, t.node? i = t'.node? i ∨ ∃ (n : Node) (ss ss' : List Slot),
    t.node? i = some { n with form := .sourceFile ss } ∧
    t'.node? i = some { n with form := .sourceFile ss' }

namespace ReadsAs

theorem refl (t : Tree) : t.ReadsAs t := ⟨rfl, rfl, fun _ => .inl rfl⟩

variable (h : t.ReadsAs t')

include h

theorem form (i : Slot) : t.form? i = t'.form? i ∨
    ∃ ss ss', t.form? i = some (.sourceFile ss) ∧ t'.form? i = some (.sourceFile ss') := by
  rcases h.node i with he | ⟨n, ss, ss', he, he'⟩
  · exact .inl (congrArg _ he)
  · exact .inr ⟨ss, ss', congrArg (Option.map Node.form) he, congrArg (Option.map Node.form) he'⟩

/-- **What is read off a form** is the same, if it is the same for all source files. -/
theorem form_congr {α : Type} (g : Option Form → α)
    (hg : ∀ ss ss', g (some (.sourceFile ss)) = g (some (.sourceFile ss'))) (i : Slot) :
    g (t.form? i) = g (t'.form? i) := by
  rcases h.form i with he | ⟨ss, ss', he, he'⟩
  · rw [he]
  · rw [he, he', hg ss ss']

theorem span? : t.span? = t'.span? := by
  funext i
  rcases h.node i with he | ⟨n, ss, ss', he, he'⟩
  · rw [Tree.span?, he, Tree.span?]
  · rw [Tree.span?, he, Tree.span?, he']
    rfl

theorem parent : t.parent = t'.parent := by
  funext i
  rcases h.node i with he | ⟨n, ss, ss', he, he'⟩
  · rw [Tree.parent, he, Tree.parent]
  · rw [Tree.parent, he, Tree.parent, he']
    rfl

theorem text : t.text = t'.text := by
  funext i
  rw [Tree.text, h.span?, h.source, Tree.text]

theorem identifier? : t.identifier? = t'.identifier? := by
  funext i
  unfold Tree.identifier?
  rcases h.form i with he | ⟨ss, ss', he, he'⟩
  · rw [he]
  · rw [he, he']

theorem modifier? : t.modifier? = t'.modifier? := by
  funext i
  unfold Tree.modifier?
  rcases h.form i with he | ⟨ss, ss', he, he'⟩
  · rw [he]
  · rw [he, he']

theorem declaredName? : t.declaredName? = t'.declaredName? := by
  funext i
  unfold Tree.declaredName?
  rw [h.identifier?, h.text]
  exact h.form_congr (fun f => do
    let name ← (← f).name
    return (t'.identifier? (some name)).getD (t'.text (some name))) (fun _ _ => rfl) i

theorem isDeclaredName : t.isDeclaredName = t'.isDeclaredName := by
  funext i
  unfold Tree.isDeclaredName
  rw [h.parent]
  rcases h.form (t'.parent i) with he | ⟨ss, ss', he, he'⟩
  · rw [he]
  · rw [he, he']
    rfl

theorem modifiers : t.modifiers = t'.modifiers := by
  funext i
  unfold Tree.modifiers Tree.header?
  rw [h.modifier?]
  exact h.form_congr (fun f => ((f.bind Form.header?).map fun header =>
    header.modifiers.filterMap t'.modifier?).getD []) (fun _ _ => rfl) i

theorem declaredNames : t.declaredNames = t'.declaredNames := by
  funext statement
  have hname : (fun d => (t.form? d).bind fun f => t.identifier? f.name) =
      fun d => (t'.form? d).bind fun f => t'.identifier? f.name := by
    funext d
    rw [h.identifier?]
    exact h.form_congr (fun o => o.bind fun f => t'.identifier? f.name) (fun _ _ => rfl) d
  unfold Tree.declaredNames
  rw [hname, h.identifier?]
  rcases h.form statement with he | ⟨ss, ss', he, he'⟩
  · rw [he]
  · rw [he, he']
    rfl

/-! ## Decorators -/

theorem expression? : Decorator.expression? t = Decorator.expression? t' := by
  funext i
  unfold Decorator.expression?
  rcases h.form i with he | ⟨ss, ss', he, he'⟩
  · rw [he]
  · rw [he, he']

theorem ofHeader : Decorator.ofHeader t = Decorator.ofHeader t' := by
  have hread : Decorator.read? t = Decorator.read? t' := by
    funext i
    unfold Decorator.read?
    rw [h.span?, h.text, h.expression?]
    congr 1
    funext span
    congr 1
    funext expression
    rcases h.form expression with he | ⟨ss, ss', he, he'⟩
    · rw [he]
    · rw [he, he']
      rfl
  funext header
  rw [Decorator.ofHeader, hread, Decorator.ofHeader]

theorem requirements : Decorator.requirements t = Decorator.requirements t' := by
  have htrue : Decorator.isTrue t = Decorator.isTrue t' := by
    funext i
    unfold Decorator.isTrue
    rcases h.form i with he | ⟨ss, ss', he, he'⟩
    · rw [he]
    · rw [he, he']
  have hproperty : Decorator.readProperty t = Decorator.readProperty t' := by
    funext entry i
    unfold Decorator.readProperty
    rw [h.text, htrue]
    rcases h.form i with he | ⟨ss, ss', he, he'⟩
    · rw [he]
    · rw [he, he']
  have hrequirement : Decorator.requirement? t = Decorator.requirement? t' := by
    funext i
    unfold Decorator.requirement?
    rw [hproperty]
    rcases h.form i with he | ⟨ss, ss', he, he'⟩
    · rw [he]
    · rw [he, he']
  have hentries : Decorator.entries t = Decorator.entries t' := by
    funext i
    unfold Decorator.entries
    rw [h.text, hrequirement, h.expression?]
    cases Decorator.expression? t' i with
    | none => rfl
    | some expression =>
      rw [Option.bind_some, Option.bind_some]
      rcases h.form expression with he | ⟨ss, ss', he, he'⟩
      · rw [he]
        split
        · next first _ _ =>
          rcases h.form first with he | ⟨ss, ss', he, he'⟩
          · rw [he]
          · rw [he, he']
        · rfl
      · rw [he, he']
  funext header
  rw [Decorator.requirements, hentries, Decorator.requirements]

/-! ## Types -/

theorem build (fuel : Nat) : TypeShape.build t fuel = TypeShape.build t' fuel ∧
    TypeShape.memberShapes t fuel = TypeShape.memberShapes t' fuel := by
  induction fuel with
  | zero => exact ⟨rfl, rfl⟩
  | succ fuel ih =>
    constructor
    · funext depth i
      unfold TypeShape.build
      rw [ih.1, ih.2, h.span?, h.text]
      rcases h.node i with he | ⟨n, ss, ss', he, he'⟩
      · rw [he]
      · rw [he, he']
    · funext depth i
      unfold TypeShape.memberShapes
      rw [ih.1, ih.2]
      rcases h.form i with he | ⟨ss, ss', he, he'⟩
      · rw [he]
      · rw [he, he']

theorem ofNode? : TypeShape.ofNode? t = TypeShape.ofNode? t' := by
  funext i
  rw [TypeShape.ofNode?, h.size, (h.build _).1, TypeShape.ofNode?]

end ReadsAs

/-! ## The order of the statements -/

end Tree

/-- A source file with other statements. Any other node stays as it is. -/
def Node.withStatements (n : Node) (statements : List Slot) : Node :=
  match n.form with
  | .sourceFile _ => { n with form := .sourceFile statements }
  | _ => n

namespace Tree

/-- **The tree with its statements in another order.** -/
def reorder (t : Tree) (statements : List Slot) : Tree :=
  { t with nodes := match t.root with
      | some r => t.nodes.modify r (·.withStatements statements)
      | none => t.nodes }

variable (t : Tree) (ss : List Slot)

/-- Only the root is another node. -/
theorem node?_reorder (i : Slot) : (t.reorder ss).node? i =
    if i = t.root then (t.node? i).map (·.withStatements ss) else t.node? i := by
  cases i with
  | none =>
    split_ifs
    · rfl
    · rfl
  | some i =>
    unfold node? reorder
    cases hr : t.root with
    | none => rw [if_neg (Option.some_ne_none i)]
    | some r =>
      rw [Option.bind_some, Option.bind_some, Array.getElem?_modify]
      by_cases h : r = i
      · rw [if_pos h, if_pos (congrArg some h.symm)]
      · rw [if_neg h, if_neg fun he => h (Option.some.inj he).symm]

theorem form?_reorder_of_ne {i : Slot} (h : i ≠ t.root) :
    (t.reorder ss).form? i = t.form? i := by
  rw [form?, node?_reorder, if_neg h, form?]

/-- **A tree with its statements in another order is read alike.** -/
theorem readsAs_reorder : t.ReadsAs (t.reorder ss) := by
  refine ⟨rfl, ?_, fun i => ?_⟩
  · unfold size reorder
    cases t.root with
    | none => rfl
    | some r => exact Array.size_modify.symm
  · rw [node?_reorder]
    split_ifs
    · cases t.node? i with
      | none => exact .inl rfl
      | some n =>
        rw [Option.map_some, Node.withStatements]
        split
        · next ss' hform => exact .inr ⟨n, ss', ss, by rw [← hform], rfl⟩
        · exact .inl rfl
    · exact .inl rfl

variable {t ss}

/-- The statements are those that are given, in their order. -/
theorem statements_reorder (h : t.statements.Perm ss) : (t.reorder ss).statements = ss := by
  unfold statements at h ⊢
  rw [show (t.reorder ss).root = t.root from rfl, form?, node?_reorder, if_pos rfl]
  rw [form?] at h
  cases hr : t.node? t.root with
  | none =>
    rw [hr] at h
    exact (List.nil_perm.mp h).symm
  | some n =>
    rw [hr] at h
    obtain ⟨form, span, parent⟩ := n
    cases form with
    | sourceFile _ => rfl
    | _ => exact (List.nil_perm.mp h).symm

end Tree

end Bindery
