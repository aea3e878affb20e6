import Bindery.Proofs.Binding.Alongside
import Bindery.Proofs.Binding.Lineage
import Bindery.Proofs.Project.Run
import Bindery.Proofs.Store.Issue
import Bindery.Proofs.Symbol.Late

/-!
# The ids of a run

A class is linked to the parent that was found when it was bound, or when its import was. The link
is an id: it stays when the unit of the parent goes, and finds nothing from then on.

* `ClassInfo.ParentsIn`: what every parent in the data of a class satisfies.
* `Context.parent_of_mem_bind`: a class is linked to a parent that is there.
* `Store.Knows`: the symbols of a store, and the parents of its classes, are among some ids.
* **`History.knows_run`**: all of them have been handed out.
* **`History.tracks_issued`**: no id is handed out twice, unless a cell is used too often.
* **`History.bare_of_symbol?_run`**: an id that was handed out finds the declaration it was handed
  out for, or nothing.
-/

namespace Bindery

/-- Every parent in the data of a class satisfies `P`. -/
def ClassInfo.ParentsIn (P : SymbolId → Prop) (info : Option ClassInfo) : Prop :=
  ∀ c, info = some c → ∀ q, c.parent = some q → P q

namespace ClassInfo.ParentsIn

variable {P Q : SymbolId → Prop} {info : Option ClassInfo}

theorem imp (h : ParentsIn P info) (hPQ : ∀ q, P q → Q q) : ParentsIn Q info :=
  fun c hc q hq => hPQ q (h c hc q hq)

theorem map (h : ParentsIn P info) {f : ClassInfo → ClassInfo}
    (hf : ∀ c q, (f c).parent = some q → c.parent = some q ∨ P q) :
    ParentsIn P (info.map f) := by
  intro c hc q hq
  obtain ⟨c', hc', rfl⟩ := Option.map_eq_some_iff.mp hc
  exact (hf c' q hq).elim (h c' hc' q) id

theorem learn {x : Symbol} (h : ParentsIn P x.classInfo) {l : LateImport}
    (hl : ∀ q, l.parent = some q → P q) : ParentsIn P (x.learn l).classInfo := by
  rw [Symbol.classInfo_learn]
  refine h.map fun c q hq => ?_
  have hb : (Symbol.completeBase l.name l.target c).parent = c.parent := by
    unfold Symbol.completeBase
    split_ifs <;> rfl
  unfold ClassInfo.learn Project.adoptParent at hq
  split_ifs at hq
  · exact .inr (hl q hq)
  · exact .inl (hb ▸ hq)

end ClassInfo.ParentsIn

open ClassInfo (ParentsIn)

/-! ## The parent of a new class -/

namespace Context

variable {cx : Context}

theorem parentsIn_setBase (d : Draft) (shape : TypeShape) (target : Option String) :
    ParentsIn (cx.store.isClassOrInterface · = true)
      (cx.setBase d shape target).symbol.classInfo := by
  intro c hc q hq
  obtain ⟨c, -, rfl⟩ := Option.map_eq_some_iff.mp hc
  obtain ⟨t, -, ht⟩ := Option.bind_eq_some_iff.mp hq
  exact (Option.filter_eq_some_iff.mp ht).2

theorem parentsIn_inheritShape {l : Lineage}
    (h : ParentsIn (cx.store.isClassOrInterface · = true) l.draft.symbol.classInfo)
    (hidden : List String) (x : Inherited) :
    ParentsIn (cx.store.isClassOrInterface · = true)
      (cx.inheritShape hidden l x).draft.symbol.classInfo := by
  have hd : (cx.heritageTarget hidden x.shape l.draft).1.symbol.classInfo = _ :=
    classInfo_heritageTarget hidden x.shape l.draft
  rw [Context.inheritShape]
  generalize cx.heritageTarget hidden x.shape l.draft = res at *
  obtain ⟨draft, target⟩ := res
  rw [← hd] at h
  cases x.kind with
  | extending =>
    by_cases h0 : l.seen = 0
    · simp only [extend, h0, if_true]
      exact parentsIn_setBase draft x.shape target
    · have he := classInfo_extend_further cx { l with draft } x.clause x.shape target h0
      exact he ▸ h.map fun _ _ hq => .inl hq
  | implementing =>
    have he := classInfo_implement { l with draft } target
    exact he ▸ h.map fun _ _ hq => .inl hq

/-- **The parent of a new class** is a class that is there. -/
theorem parent_of_mem_bind {statement : Slot} {b : Bound} (hb : b ∈ (cx.bind statement).1) :
    ParentsIn (cx.store.isClassOrInterface · = true) b.symbol.classInfo := by
  intro c hc q hq
  obtain ⟨kind, i, parts, ds, -, hbind⟩ :=
    class_of_mem_bind hb (by rw [Symbol.isClassOrInterface, hc]; rfl)
  obtain ⟨s, -, hs⟩ := Option.map_eq_some_iff.mp hbind
  set data := cx.newClassInfo kind i (cx.parameterNames parts.typeParameters) s
  set l := cx.inherit (cx.parameterNames parts.typeParameters) { s with classInfo := some data }
    parts.heritage
  have hl : ParentsIn (cx.store.isClassOrInterface · = true) l.draft.symbol.classInfo :=
    inherit_induction (P := fun _ (l : Lineage) =>
        ParentsIn (cx.store.isClassOrInterface · = true) l.draft.symbol.classInfo)
      (fun c hc q hq => by cases hc; cases hq) (fun _ _ x h => parentsIn_inheritShape h _ x) _
  have hclass : b.symbol.classInfo = some (cx.recordMembers (l.draft.symbol.classInfo.getD data)
      (cx.memberNodes i parts)).1 :=
    (congrArg (fun result => result.1.symbol.classInfo) hs).symm.trans
      (Draft.classInfo_resolveAll _ _ _)
  cases hc.symm.trans hclass
  have hmembers : Context.memberless (cx.recordMembers _ _).1 = _ :=
    memberless_recordMembers (l.draft.symbol.classInfo.getD data) (cx.memberNodes i parts)
  have hq : (l.draft.symbol.classInfo.getD data).parent = some q :=
    (congrArg ClassInfo.parent hmembers).symm.trans hq
  cases hcl : l.draft.symbol.classInfo with
  | none =>
    rw [hcl] at hq
    cases hq
  | some c' =>
    rw [hcl] at hq
    exact hl c' hcl q hq

end Context

/-! ## What a store knows -/

namespace Store

/-- **The symbols of a store, and the parents of its classes**, are among these ids. -/
structure Knows (s : Store) (ids : List SymbolId) : Prop where
  symbol : ∀ id x, s.symbol? id = some x → id ∈ ids
  parent : ∀ id x, s.symbol? id = some x → ParentsIn (· ∈ ids) x.classInfo

namespace Knows

variable {s s' : Store} {ids : List SymbolId}

theorem empty : ({} : Store).Knows [] where
  symbol id x hx := by simp [symbol?, Arena.get?] at hx
  parent id x hx := by simp [symbol?, Arena.get?] at hx

theorem dismissAll (h : s.Knows ids) (gone : List SymbolId) : (gone.foldl dismiss s).Knows ids := by
  have hs : ∀ id x, (gone.foldl dismiss s).symbol? id = some x → s.symbol? id = some x :=
    fun id x hx => by
      rw [symbol?_dismissAll] at hx
      split_ifs at hx
      exact hx
  exact ⟨fun id x hx => h.symbol id x (hs id x hx), fun id x hx => h.parent id x (hs id x hx)⟩

theorem mem_of_isClassOrInterface (h : s.Knows ids) {q : SymbolId}
    (hq : s.isClassOrInterface q = true) : q ∈ ids := by
  obtain ⟨x, hx, -⟩ := (Option.any_eq_true _ _).mp hq
  exact h.symbol q x hx

theorem enroll (h : s.Knows ids) (hs : s.symbols.Sound) {x : Symbol}
    (hx : ParentsIn (· ∈ ids) x.classInfo) (withShort : Bool) :
    (s.enroll x withShort).1.Knows (ids ++ [(s.enroll x withShort).2.1]) := by
  have hget : ∀ id, (s.enroll x withShort).1.symbol? id =
      if id = (s.enroll x withShort).2.1 then some x else s.symbol? id :=
    fun id => Arena.get?_insert hs x id
  refine ⟨fun id y hy => ?_, fun id y hy => ?_⟩
  · rw [hget] at hy
    split_ifs at hy with hid
    · exact List.mem_append_right _ (List.mem_singleton.mpr hid)
    · exact List.mem_append_left _ (h.symbol id y hy)
  · rw [hget] at hy
    split_ifs at hy
    · cases hy
      exact hx.imp fun _ => List.mem_append_left _
    · exact (h.parent id y hy).imp fun _ => List.mem_append_left _

theorem settleAll (h : s.Knows ids) {parent : Option SymbolId}
    (hp : ∀ q, parent = some q → q ∈ ids) (name target source : String)
    (queue : List WaitingReference) : (s.settleAll name target source parent queue).Knows ids := by
  refine ⟨fun id y hy => ?_, fun id y hy => ?_⟩
  · rw [symbol?_settleAll] at hy
    obtain ⟨x, hx, -⟩ := Option.map_eq_some_iff.mp hy
    exact h.symbol id x hx
  · rw [symbol?_settleAll] at hy
    obtain ⟨x, hx, rfl⟩ := Option.map_eq_some_iff.mp hy
    exact List.foldlRecOn (motive := fun y : Symbol => ParentsIn (· ∈ ids) y.classInfo) _ _
      (h.parent id x hx) fun y hy r _ =>
        hy.learn (l := ⟨⟨name, r.strong, r.placed⟩, target, source, parent⟩) hp

end Knows

end Store

/-! ## Units that come and go -/

namespace Project

variable {p : Project} {ids : List SymbolId}

theorem Session.knows_takeAll {bound : List Bound} {s : Session}
    (hs : s.store.symbols.Sound) (h : s.store.Knows (ids ++ s.ids))
    (hb : ∀ b ∈ bound, ParentsIn (· ∈ ids ++ s.ids) b.symbol.classInfo) :
    (bound.foldl Session.take s).store.symbols.Sound ∧
      (bound.foldl Session.take s).store.Knows (ids ++ (bound.foldl Session.take s).ids) := by
  induction bound generalizing s with
  | nil => exact ⟨hs, h⟩
  | cons b bound ih =>
    have hids : ids ++ (s.take b).ids =
        ids ++ s.ids ++ [(s.store.enroll b.symbol !s.scope.isLibrary).2.1] := by
      rw [s.ids_take, List.append_assoc]
    refine ih (hs.insert b.symbol) ?_ fun b' hb' => ?_
    · rw [hids]
      exact h.enroll hs (hb b (.head _)) _
    · rw [hids]
      exact (hb b' (.tail _ hb')).imp fun _ => List.mem_append_left _

theorem knows_session (hs : p.store.symbols.Sound) (h : p.store.Knows ids) (tree : Tree)
    (scope : Scope) : (p.session tree scope).store.Knows (ids ++ (p.session tree scope).ids) := by
  refine (List.foldlRecOn (motive := fun s : Session => s.store.symbols.Sound ∧
    s.store.Knows (ids ++ s.ids)) _ _ ⟨hs, ?_⟩ fun s hf statement _ => ?_).2
  · rwa [List.append_nil]
  · exact Session.knows_takeAll hf.1 hf.2 fun b hb => (Context.parent_of_mem_bind hb).imp fun _ =>
      hf.2.mem_of_isClassOrInterface

theorem knows_supplyImport (h : p.store.Knows ids) (uri name target : String) :
    (p.supplyImport uri name target).1.store.Knows ids := by
  cases hw : p.waiting? uri name with
  | none => rwa [supplyImport_of_none hw]
  | some w =>
    obtain ⟨u, hu, hw⟩ := Option.bind_eq_some_iff.mp hw
    rw [store_supplyImport hu hw]
    exact h.settleAll (fun q hq => h.mem_of_isClassOrInterface
      (Option.filter_eq_some_iff.mp hq).2) _ _ _ _

theorem knows_resolveFound (h : p.store.Knows ids) (work : List Found) :
    (p.resolveFound work).1.store.Knows ids :=
  resolveFound_induction (P := fun p => p.store.Knows ids) h
    (fun _ f h => knows_supplyImport h f.uri f.name f.target) work

theorem knows_unload (h : p.store.Knows ids) (uri : String) : (p.unload uri).1.store.Knows ids := by
  rw [store_unload]
  exact h.dismissAll _

theorem knows_bind (hl : p.store.Lists p.roll) (h : p.store.Knows ids) (tree : Tree)
    (scope : Scope) : (p.bind tree scope).1.store.Knows (ids ++ (p.bind tree scope).2.1) := by
  rw [bind_eq, ids_bind]
  exact knows_resolveFound (p := (p.unload scope.uri).1.enter tree scope)
    (knows_session (lists_unload hl).arena (knows_unload h _) tree scope) _

end Project

/-! ## No id is handed out twice -/

namespace Arena

theorem vacated_le {ids ids' : List SymbolId} (hn : ids.Nodup) (h : ids ⊆ ids') (i : Nat) :
    vacated ids i ≤ vacated ids' i :=
  (List.subperm_of_subset (hn.filter _) (List.filter_subset _ h)).length_le

namespace Tracks

variable {s : Store} {given gone : List SymbolId}

theorem dismiss (h : Tracks s.symbols given gone) (hbound : ∀ i, vacated given i < UInt32.size)
    (id : SymbolId) : ∃ gone', Tracks (s.dismiss id).symbols given gone' := by
  cases hx : s.symbol? id with
  | none =>
    rw [Store.dismiss_of_none hx]
    exact ⟨gone, h⟩
  | some x =>
    have hnew : id ∉ gone := h.not_mem_gone (generation_of_get? hx)
    have hsub : gone ++ [id] ⊆ given := fun k hk => by
      rcases List.mem_append.mp hk with hk | hk
      · exact (h.given_iff k).mpr (.inl hk)
      · rw [List.mem_singleton.mp hk]
        exact (h.given_iff id).mpr (.inr (Option.isSome_of_eq_some hx))
    have hle := vacated_le (List.concat_eq_append ▸ h.nodup_gone.concat hnew) hsub id.index
    rw [vacated_concat, if_pos rfl] at hle
    rw [Store.dismiss_of_some hx]
    exact ⟨_, h.remove hx (Nat.lt_of_le_of_lt hle (hbound _))⟩

theorem dismissAll (h : Tracks s.symbols given gone)
    (hbound : ∀ i, vacated given i < UInt32.size) (ids : List SymbolId) :
    ∃ gone', Tracks (ids.foldl Store.dismiss s).symbols given gone' :=
  List.foldlRecOn (motive := fun s : Store => ∃ gone', Tracks s.symbols given gone') _ _ ⟨gone, h⟩
    fun _ ⟨_, h⟩ id _ => h.dismiss hbound id

theorem settleAll (h : Tracks s.symbols given gone) (name target source : String)
    (parent : Option SymbolId) (queue : List WaitingReference) :
    Tracks (s.settleAll name target source parent queue).symbols given gone :=
  List.foldlRecOn (motive := fun s : Store => Tracks s.symbols given gone) _ _ h
    fun _ h _ _ => h.modify _ _

end Tracks

end Arena

open Arena (Tracks)

namespace Project

variable {p : Project} {given gone : List SymbolId}

theorem Session.tracks_take {s : Session} (h : Tracks s.store.symbols (given ++ s.ids) gone)
    (b : Bound) : Tracks (s.take b).store.symbols (given ++ (s.take b).ids) gone := by
  rw [s.ids_take, ← List.append_assoc]
  exact h.insert b.symbol

theorem tracks_session (h : Tracks p.store.symbols given gone) (tree : Tree) (scope : Scope) :
    Tracks (p.session tree scope).store.symbols (given ++ (p.session tree scope).ids) gone := by
  refine List.foldlRecOn
    (motive := fun s : Session => Tracks s.store.symbols (given ++ s.ids) gone) _ _ ?_
    fun s hs statement _ => List.foldlRecOn
      (motive := fun s : Session => Tracks s.store.symbols (given ++ s.ids) gone) _ _ hs
      fun s hs b _ => Session.tracks_take hs b
  rwa [List.append_nil]

theorem tracks_supplyImport (h : Tracks p.store.symbols given gone) (uri name target : String) :
    Tracks (p.supplyImport uri name target).1.store.symbols given gone := by
  cases hw : p.waiting? uri name with
  | none => rwa [supplyImport_of_none hw]
  | some w =>
    obtain ⟨u, hu, hw⟩ := Option.bind_eq_some_iff.mp hw
    rw [store_supplyImport hu hw]
    exact h.settleAll _ _ _ _ _

theorem tracks_resolveFound (h : Tracks p.store.symbols given gone) (work : List Found) :
    Tracks (p.resolveFound work).1.store.symbols given gone :=
  resolveFound_induction (P := fun p => Tracks p.store.symbols given gone) h
    (fun _ f h => tracks_supplyImport h f.uri f.name f.target) work

theorem Completed.symbol?_before {p' : Project} (hc : p.Completed p') {q : SymbolId} {x : Symbol}
    (hx : p'.symbol? q = some x) : ∃ y, p.symbol? q = some y ∧ y.bare = x.bare := by
  have hb := hc.bare q
  rw [hx, Option.map_some, eq_comm, Option.map_eq_some_iff] at hb
  exact hb

end Project

namespace History

variable {options : Options} {actions : List Action} {h : History}

/-- No cell has been used so often that its generations repeat. -/
def NeverRepeats (h : History) : Prop :=
  ∀ i, (h.issued.filter (·.index = i)).length < UInt32.size

theorem issued_step (h : History) (a : Action) : ∃ new, (h.step a).issued = h.issued ++ new := by
  cases a with
  | bind tree scope => exact ⟨_, rfl⟩
  | unload uri => exact ⟨[], (List.append_nil _).symm⟩
  | supply uri name target => exact ⟨[], (List.append_nil _).symm⟩

theorem run_concat (a : Action) : run options (actions ++ [a]) = (run options actions).step a := by
  rw [run, List.foldl_append]
  rfl

theorem issued_run_append (actions after : List Action) :
    (run options actions).issued ⊆ (run options (actions ++ after)).issued := by
  induction after using List.reverseRecOn with
  | nil =>
    rw [List.append_nil]
    exact fun _ hq => hq
  | append_singleton after a ih =>
    rw [← List.append_assoc, run_concat]
    obtain ⟨new, hnew⟩ := (run options (actions ++ after)).issued_step a
    rw [hnew]
    exact fun q hq => List.mem_append_left _ (ih hq)

theorem NeverRepeats.of_step {a : Action} (hf : (h.step a).NeverRepeats) : h.NeverRepeats := by
  intro i
  obtain ⟨new, hnew⟩ := h.issued_step a
  have hi := hf i
  rw [hnew] at hi
  exact Nat.lt_of_le_of_lt (Arena.vacated_append_le _ _ i) hi

/-- **The symbols of a run, and the parents of its classes**, have been handed out. -/
theorem knows_run (options : Options) (actions : List Action) :
    (run options actions).project.store.Knows (run options actions).issued := by
  refine (run_induction (P := fun h => h.project.store.Lists h.project.roll ∧
    h.project.store.Knows h.issued) ⟨Store.lists_empty, .empty⟩ fun h a _ ⟨hl, hk⟩ => ?_).2
  cases a with
  | bind tree scope => exact ⟨Project.lists_bind hl tree scope, Project.knows_bind hl hk tree scope⟩
  | unload uri => exact ⟨Project.lists_unload hl, Project.knows_unload hk uri⟩
  | supply uri name target =>
    exact ⟨(Project.completed_supplyImport _ _ _ _).lists hl,
      Project.knows_supplyImport hk uri name target⟩

/-- One action, unless it uses a cell too often. -/
theorem tracks_issued_step {gone : List SymbolId}
    (ht : Tracks h.project.store.symbols h.issued gone) (hf : h.NeverRepeats) (a : Action) :
    ∃ gone', Tracks (h.step a).project.store.symbols (h.step a).issued gone' := by
  have hunload : ∀ uri, ∃ gone', Tracks (h.project.unload uri).1.store.symbols h.issued gone' :=
    fun uri => by
      rw [Project.store_unload]
      exact ht.dismissAll hf _
  cases a with
  | bind tree scope =>
    obtain ⟨gone', ht'⟩ := hunload scope.uri
    exact ⟨gone', Project.tracks_resolveFound (Project.tracks_session ht' tree scope) _⟩
  | unload uri => exact hunload uri
  | supply uri name target => exact ⟨gone, Project.tracks_supplyImport ht uri name target⟩

/-- **No id is handed out twice**, unless a cell is used too often. -/
theorem tracks_issued (hf : (run options actions).NeverRepeats) : ∃ gone,
    Tracks (run options actions).project.store.symbols (run options actions).issued gone := by
  induction actions using List.reverseRecOn with
  | nil => exact ⟨[], .empty⟩
  | append_singleton actions a ih =>
    rw [run_concat] at hf ⊢
    obtain ⟨gone, ht⟩ := ih hf.of_step
    exact tracks_issued_step ht hf.of_step a

/-! ## What an id finds later -/

/-- What an id finds that was handed out before an action is what it found before. -/
theorem bare_of_symbol?_step (hl : h.project.store.Lists h.project.roll) {a : Action}
    (hn : (h.step a).issued.Nodup) {q : SymbolId} (hq : q ∈ h.issued) {x : Symbol}
    (hx : (h.step a).project.symbol? q = some x) :
    ∃ y, h.project.symbol? q = some y ∧ y.bare = x.bare := by
  have hunload : ∀ {uri y}, (h.project.unload uri).1.symbol? q = some y →
      h.project.symbol? q = some y := fun hy => by
    rw [Project.symbol?_unload] at hy
    split_ifs at hy
    exact hy
  cases a with
  | bind tree scope =>
    have hnew : q ∉ (h.project.bind tree scope).2.1 := fun hc =>
      List.disjoint_of_nodup_append hn hq hc
    have hlp : (h.project.unload scope.uri).1.store.Lists (h.project.unload scope.uri).1.roll :=
      Project.lists_unload hl
    have hnone : (h.project.unload scope.uri).1.units.get? scope.uri = none :=
      Project.get?_unload_self
    obtain ⟨y, hy, hyx⟩ :=
      (Project.completed_resolveFound _ _).symbol?_before hx
    -- The id is not one of the new ones, so it was on the roll before them.
    have hroll := ((Project.lists_enter hlp hnone).live q).mp (Option.isSome_of_eq_some hy)
    rw [Project.roll_enter hnone, List.map_append, List.mem_append] at hroll
    have hold : q ∈ (h.project.unload scope.uri).1.roll.map Listing.id := by
      refine hroll.resolve_right fun hc => hnew ?_
      rw [Project.unitRoll, List.map_map] at hc
      obtain ⟨k, hk, rfl⟩ := List.mem_map.mp hc
      exact hk
    obtain ⟨z, hz⟩ := Option.isSome_iff_exists.mp ((hlp.live q).mpr hold)
    have hzy : ((h.project.unload scope.uri).1.enter tree scope).symbol? q = some z :=
      Project.symbol?_enter hlp hz
    cases hy.symm.trans hzy
    exact ⟨y, hunload hz, hyx⟩
  | unload uri => exact ⟨x, hunload hx, rfl⟩
  | supply uri name target =>
    exact (Project.completed_supplyImport _ _ _ _).symbol?_before hx

/-- **What an id finds later** is the declaration that it was handed out for. -/
theorem bare_of_symbol?_run {after : List Action}
    (hf : (run options (actions ++ after)).NeverRepeats) {q : SymbolId} (hq : q ∈ (run options actions).issued) {x : Symbol}
    (hx : (run options (actions ++ after)).project.symbol? q = some x) :
    ∃ y, (run options actions).project.symbol? q = some y ∧ y.bare = x.bare := by
  induction after using List.reverseRecOn generalizing x with
  | nil =>
    rw [List.append_nil] at hx
    exact ⟨x, hx, rfl⟩
  | append_singleton after a ih =>
    rw [← List.append_assoc] at hf hx
    obtain ⟨gone, ht⟩ := tracks_issued hf
    rw [run_concat] at hf hx ht
    obtain ⟨y, hy, hyx⟩ := bare_of_symbol?_step (lists_run _ _) ht.nodup_given
      (issued_run_append actions after hq) hx
    obtain ⟨z, hz, hzy⟩ := ih hf.of_step hy
    exact ⟨z, hz, hzy.trans hyx⟩

end History

end Bindery
