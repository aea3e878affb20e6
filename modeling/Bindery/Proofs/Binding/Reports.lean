import Bindery.Proofs.Binding.Declared

/-!
# What is reported about a statement

Binding a statement reports members without a type, places in the way of one another and superfluous
bases, and nothing else.

* `Diagnostic.code_ofProblem`: the number of a problem is that of its diagnostic.
* `Context.code_of_mem_recordMembers`, `Context.code_of_mem_inherit`, `Context.code_of_mem_finish`:
  the parts of a declaration.
* **`Context.code_of_mem_bind`**: a statement.
-/

namespace Bindery

theorem Diagnostic.code_ofProblem (file : String) (span : Span) (p : Problem) :
    (Diagnostic.ofProblem file span p).code = p.code := by
  cases p <;> rfl

namespace Context

variable {cx : Context} {d : Diagnostic}

theorem code_of_mem_recordMember {c : ClassInfo} {i : Nat} (h : d ∈ (cx.recordMember c i).2) :
    d.code = 1001 := by
  unfold recordMember at h
  cases hn : cx.tree.node? (some i) with
  | none =>
    rw [hn] at h
    cases h
  | some n =>
    rw [hn] at h
    dsimp only at h
    generalize cx.memberShape? i n.form = shape at h
    rcases shape with _ | (_ | _ | _)
    · cases h
    · cases h
    · dsimp only at h
      split_ifs at h
      · obtain rfl := List.mem_singleton.mp h
        exact Diagnostic.code_ofProblem _ _ _
      · cases h
    · cases h

theorem code_of_mem_recordMembers {c : ClassInfo} {members : List Nat}
    (h : d ∈ (cx.recordMembers c members).2) : d.code = 1001 := by
  have hall : ∀ d ∈ (cx.recordMembers c members).2, d.code = 1001 := by
    refine List.foldlRecOn (motive := fun state : ClassInfo × List Diagnostic =>
      ∀ d ∈ state.2, d.code = 1001) members _ (fun d hd => nomatch hd) fun state hs i _ d hd => ?_
    rcases List.mem_append.mp hd with hd | hd
    · exact hs d hd
    · exact code_of_mem_recordMember hd
  exact hall d h

theorem code_of_mem_extend {clause : Slot} {shape : TypeShape} {target : Option String}
    {l : Lineage} (hl : ∀ d ∈ l.diagnostics, d.code = 1003)
    (h : d ∈ (cx.extend clause shape target l).diagnostics) : d.code = 1003 := by
  simp only [extend] at h
  split_ifs at h
  · exact hl d h
  · cases target <;> exact hl d h
  · rcases List.mem_append.mp h with h | h
    · exact hl d h
    · obtain rfl := List.mem_singleton.mp h
      exact Diagnostic.code_ofProblem _ _ _
  · exact hl d h

theorem diagnostics_implement (target : Option String) (l : Lineage) :
    (implement target l).diagnostics = l.diagnostics := by
  cases target <;> rfl

theorem code_of_mem_inheritShape {hidden : List String} {l : Lineage} {x : Inherited}
    (hl : ∀ d ∈ l.diagnostics, d.code = 1003)
    (h : d ∈ (cx.inheritShape hidden l x).diagnostics) : d.code = 1003 := by
  unfold inheritShape at h
  generalize cx.heritageTarget hidden x.shape l.draft = found at h
  obtain ⟨draft, target⟩ := found
  have hdraft : ∀ d ∈ ({ l with draft } : Lineage).diagnostics, d.code = 1003 := hl
  cases hk : x.kind with
  | extending =>
    rw [hk] at h
    exact code_of_mem_extend hdraft h
  | implementing =>
    rw [hk] at h
    exact hdraft d (diagnostics_implement target _ ▸ h)

theorem code_of_mem_inherit {hidden : List String} {s : Symbol} {clauses : List Slot}
    (h : d ∈ (cx.inherit hidden s clauses).diagnostics) : d.code = 1003 := by
  rw [inherit_eq] at h
  have hall : ∀ d ∈ ((clauses.flatMap cx.inherited).foldl (cx.inheritShape hidden)
      { draft := { symbol := s } }).diagnostics, d.code = 1003 :=
    List.foldlRecOn (motive := fun l : Lineage => ∀ d ∈ l.diagnostics, d.code = 1003) _ _
      (fun d hd => nomatch hd) fun l hl x _ d hd => code_of_mem_inheritShape hl hd
  exact hall d h

theorem code_of_mem_finish {draft : Draft} (h : d ∈ (cx.finish draft).2) : d.code = 1002 := by
  obtain ⟨_, -, rfl⟩ := List.mem_map.mp h
  exact Diagnostic.code_ofProblem _ _ _

theorem code_of_mem_bindPlain {kind : SymbolKind} {i : Nat} {name : Slot} {header : Header}
    {b : Bound} {ds : List Diagnostic} (hb : cx.bindPlain kind i name header = some (b, ds))
    (h : d ∈ ds) : d.code ∈ [1001, 1002, 1003] := by
  obtain ⟨s, -, hb⟩ := Option.map_eq_some_iff.mp hb
  rw [← show _ = ds from congrArg Prod.snd hb] at h
  simp [code_of_mem_finish h]

theorem code_of_mem_bindClass {kind : ClassKind} {i : Nat} {parts : ClassParts} {b : Bound}
    {ds : List Diagnostic} (hb : cx.bindClass kind i parts = some (b, ds)) (h : d ∈ ds) :
    d.code ∈ [1001, 1002, 1003] := by
  obtain ⟨s, -, hb⟩ := Option.map_eq_some_iff.mp hb
  rw [← show _ = ds from congrArg Prod.snd hb] at h
  rcases List.mem_append.mp h with h | h
  · rcases List.mem_append.mp h with h | h
    · simp [code_of_mem_inherit h]
    · simp [code_of_mem_recordMembers h]
  · simp [code_of_mem_finish h]

theorem mem_reports_gather {results : List (Option (Bound × List Diagnostic))} :
    d ∈ (gather results).2 ↔ ∃ b ds, some (b, ds) ∈ results ∧ d ∈ ds := by
  simp [gather]

/-- **What is reported about a statement.** -/
theorem code_of_mem_bind {statement : Slot} (h : d ∈ (cx.bind statement).2) :
    d.code ∈ [1001, 1002, 1003] := by
  unfold bind at h
  split at h
  · split at h
    · obtain ⟨b, ds, hb, h⟩ := mem_reports_gather.mp h
      exact code_of_mem_bindClass (List.mem_singleton.mp hb).symm h
    · obtain ⟨b, ds, hb, h⟩ := mem_reports_gather.mp h
      exact code_of_mem_bindPlain (List.mem_singleton.mp hb).symm h
    · obtain ⟨b, ds, hb, h⟩ := mem_reports_gather.mp h
      exact code_of_mem_bindPlain (List.mem_singleton.mp hb).symm h
    · obtain ⟨b, ds, hb, h⟩ := mem_reports_gather.mp h
      exact code_of_mem_bindPlain (List.mem_singleton.mp hb).symm h
    · obtain ⟨b, ds, hb, h⟩ := mem_reports_gather.mp h
      obtain ⟨v, -, hv⟩ := List.mem_map.mp hb
      simp only [bindVariable, Option.bind_eq_bind, Option.bind_eq_some_iff] at hv
      obtain ⟨_, _, _, _, hv⟩ := hv
      exact code_of_mem_bindPlain hv h
    · cases h
  · cases h

end Context

end Bindery
