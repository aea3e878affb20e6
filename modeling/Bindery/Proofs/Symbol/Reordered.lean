import Mathlib.Data.List.Perm.Basic
import Bindery.Proofs.Binding.Beside

/-!
# Late imports in another order

Imports with different names can be told in any order. What is written, the bases and the
dependencies inside the build come out the same; dependencies are added in the order in which they
are told.

* `LateImport.answer?_eq_some_iff`, `ClassInfo.foldl_learn`, `Symbol.mem_edges_learnAll_iff`: what is
  told, whatever the order.
* `Symbol.Agrees`: two symbols that differ in references to free names and in the order of their
  dependencies.
* **`Bound.Beside.agrees`**: two symbols of one declaration are told the same imports.
-/

namespace Bindery

variable {ls ls' : List LateImport}

/-! ## What is told -/

/-- With different names, the last answer is the only one. -/
theorem LateImport.answer?_eq_some_iff (h : (ls.map LateImport.name).Nodup) {n t : String} :
    answer? ls n = some t ↔ ∃ l ∈ ls, l.name = n ∧ l.target = t := by
  induction ls using List.reverseRecOn with
  | nil => simp [answer?]
  | append_singleton ls l ih =>
    rw [List.map_append, List.nodup_append] at h
    obtain ⟨hls, -, hd⟩ := h
    rw [answer?_append]
    split_ifs with hn
    · constructor
      · rintro ⟨⟩
        exact ⟨l, by simp, hn, rfl⟩
      · rintro ⟨k, hk, hkn, rfl⟩
        rcases List.mem_append.mp hk with hk | hk
        · exact absurd (hkn.trans hn.symm) (hd k.name (List.mem_map_of_mem hk) l.name (by simp))
        · rw [List.mem_singleton.mp hk]
    · rw [ih hls]
      simp only [List.mem_append, List.mem_singleton]
      constructor
      · rintro ⟨k, hk, hkn⟩
        exact ⟨k, .inl hk, hkn⟩
      · rintro ⟨k, hk | rfl, hkn, ht⟩
        · exact ⟨k, hk, hkn, ht⟩
        · exact absurd hkn hn

theorem LateImport.answer?_perm (hp : ls.Perm ls') (h : (ls.map LateImport.name).Nodup) :
    answer? ls = answer? ls' := by
  funext n
  apply Option.ext
  intro t
  rw [answer?_eq_some_iff h, answer?_eq_some_iff ((hp.map _).nodup_iff.mp h)]
  simp only [hp.mem_iff]

theorem ClassInfo.learn_of_parent {l : LateImport} (hl : l.parent = none) (c : ClassInfo) :
    c.learn l = Symbol.completeBase l.name l.target c := by
  rw [learn, hl, Project.adoptParent]
  split_ifs with h
  · rw [← h.2]
  · rfl

/-- **What a class is told**: the target of the import that it waits for. -/
theorem ClassInfo.foldl_learn (hp : ∀ l ∈ ls, l.parent = none) (hn : (ls.map LateImport.name).Nodup)
    (c : ClassInfo) : ls.foldl learn c = ((c.awaitedBase.bind (LateImport.answer? ls)).map fun t =>
      { c with awaitedBase := none, base := some t }).getD c := by
  induction ls using List.reverseRecOn with
  | nil => cases c.awaitedBase <;> rfl
  | append_singleton ls l ih =>
    rw [List.forall_mem_append, List.forall_mem_singleton] at hp
    rw [List.map_append, List.nodup_append] at hn
    obtain ⟨hls, -, hd⟩ := hn
    rw [List.foldl_append, ih hp.1 hls, List.foldl_cons, List.foldl_nil, learn_of_parent hp.2,
      Symbol.completeBase]
    cases ha : c.awaitedBase with
    | none => simp [ha]
    | some n =>
      rw [Option.bind_some, Option.bind_some, LateImport.answer?_append]
      cases hans : LateImport.answer? ls n with
      | none =>
        by_cases hln : n = l.name
        · simp [ha, hln]
        · simp [ha, hln, Ne.symm hln]
      | some t =>
        -- What has been answered is not asked for again.
        obtain ⟨k, hk, rfl, -⟩ := (LateImport.answer?_eq_some_iff hls).mp hans
        have hne : k.name ≠ l.name := hd k.name (List.mem_map_of_mem hk) l.name (by simp)
        simp [hne.symm]

/-- What is written for a name: the same at each of its places. -/
def Mentions.written (m : Mentions) : List ModifierChange :=
  match m.replacement with
  | none => []
  | some text => m.locations.toList.map fun l => ⟨l, text⟩

/-- An answer for a name goes before what was to be written for it. -/
def Mentions.answered (answer : String → Option String) (n : String) (m : Mentions) : Mentions :=
  { m with replacement := (answer n).or m.replacement }

theorem Mentions.written_answered {answer : String → Option String} {n : String} {m : Mentions}
    (ha : answer n = none) (hm : m.replacement = none) : (m.answered answer n).written = [] := by
  rw [written, answered, ha, hm, Option.none_or]

namespace Symbol

variable {x z : Symbol}

theorem table_learnAll (x : Symbol) (ls : List LateImport) : (x.learnAll ls).table =
    x.table.mapValues (Mentions.answered (LateImport.answer? ls)) := by
  apply Table.ext_get?
  · rw [keys_table_learnAll, Table.keys_mapValues]
  · intro n
    rw [get?_table_learnAll, Table.get?_mapValues]
    rfl

theorem classInfo_learnAll (x : Symbol) (ls : List LateImport) : (x.learnAll ls).classInfo =
    x.classInfo.map fun c => ls.foldl ClassInfo.learn c := by
  induction ls generalizing x with
  | nil => exact Option.map_id'.symm
  | cons l ls ih =>
    rw [learnAll, List.foldl_cons, ← learnAll, ih, classInfo_learn, Option.map_map]
    rfl

theorem classInfo_learnAll_congr {y : Symbol} (hi : x.classInfo = y.classInfo)
    (hp : ∀ l ∈ ls, l.parent = none) (hp' : ∀ l ∈ ls', l.parent = none)
    (hn : (ls.map LateImport.name).Nodup) (hn' : (ls'.map LateImport.name).Nodup)
    (ha : ∀ c n, x.classInfo = some c → c.awaitedBase = some n →
      LateImport.answer? ls n = LateImport.answer? ls' n) :
    (x.learnAll ls).classInfo = (y.learnAll ls').classInfo := by
  rw [classInfo_learnAll, classInfo_learnAll, ← hi]
  cases hc : x.classInfo with
  | none => rfl
  | some c =>
    have hanswer : c.awaitedBase.bind (LateImport.answer? ls) =
        c.awaitedBase.bind (LateImport.answer? ls') := by
      cases hcn : c.awaitedBase with
      | none => rfl
      | some n => exact ha c n hc hcn
    rw [Option.map_some, Option.map_some, ClassInfo.foldl_learn hp hn, ClassInfo.foldl_learn hp' hn',
      hanswer]

/-- **With different targets**, a dependency is added for each import that is told, unless there is
one on its target. -/
theorem mem_edges_learnAll_iff (h : (ls.map LateImport.target).Nodup) {e : Dependency} :
    e ∈ (x.learnAll ls).edges ↔ e ∈ x.edges ∨ ∃ l ∈ ls, e = l.edge ∧ l.target ≠ x.qualified ∧
      l.target ∉ x.edges.map Dependency.target := by
  induction ls using List.reverseRecOn with
  | nil => simp [learnAll]
  | append_singleton ls l ih =>
    rw [List.map_append, List.nodup_append] at h
    obtain ⟨hls, -, hd⟩ := h
    have hnew : l.target ∈ (x.learnAll ls).edges.map Dependency.target ↔
        l.target ∈ x.edges.map Dependency.target := by
      constructor
      · intro hm
        obtain ⟨e, he, ht⟩ := List.mem_map.mp hm
        rcases mem_edges_learnAll he with he | ⟨k, hk, rfl, -⟩
        · exact ht ▸ List.mem_map_of_mem he
        · exact absurd ht (hd k.target (List.mem_map_of_mem hk) l.target (by simp))
      · exact fun hm => ((prefix_edges_learnAll x ls).map _).subset hm
    rw [learnAll_concat, mem_edges_learn_iff, ih hls, qualified_learnAll, hnew, or_assoc]
    refine or_congr_right ?_
    simp only [List.mem_append, List.mem_singleton, or_and_right, exists_or, exists_eq_left]

theorem mem_edges_of_learnAll (hx : x.orphan = z.orphan.learnAll ls)
    (h : (ls.map LateImport.target).Nodup) {e : Dependency} :
    e ∈ x.edges ↔ e ∈ z.edges ∨ ∃ l ∈ ls, e = l.edge ∧ l.target ≠ z.qualified ∧
      l.target ∉ z.edges.map Dependency.target := by
  rw [show x.edges = x.orphan.edges from rfl, hx, mem_edges_learnAll_iff h]
  rfl

theorem replacements_false (x : Symbol) :
    x.replacements false = x.table.entries.flatMap fun e => e.2.written := by
  show (x.table.entries.map Prod.snd).flatMap Mentions.written = _
  rw [List.flatMap_map]

/-- **Names that have no answer and no replacement** can be left out. -/
theorem replacements_of_learnAll (hx : x.orphan = z.orphan.learnAll ls) {q : String → Bool}
    (ha : ∀ n, q n = false → LateImport.answer? ls n = none)
    (hz : ∀ n m, q n = false → z.table.get? n = some m → m.replacement = none) :
    x.replacements false = (z.table.entries.filter fun e => q e.1).flatMap fun e =>
      (e.2.answered (LateImport.answer? ls) e.1).written := by
  have htable : x.table = z.table.mapValues (Mentions.answered (LateImport.answer? ls)) := by
    rw [show x.table = x.orphan.table from rfl, hx, table_learnAll]
    rfl
  rw [replacements_false, htable, Table.mapValues, List.flatMap_map, Entries.flatMap_filter]
  intro e he hq
  exact Mentions.written_answered (ha e.1 hq) (hz e.1 e.2 hq (Table.mem_entries.mp he))

end Symbol

/-! ## Two symbols -/

/-- **Two symbols of one declaration**, the second of which may refer to further free names, and may
have its dependencies in another order. -/
structure Symbol.Agrees (x y : Symbol) : Prop where
  bare : x.bare = y.bare
  /-- Bases and members. -/
  classInfo : x.classInfo.map ClassInfo.orphan = y.classInfo.map ClassInfo.orphan
  compiled : x.compiled = y.compiled
  constructorText : x.constructorText = y.constructorText
  memberText : x.memberText? = y.memberText?
  /-- The second has no other dependencies inside the build. -/
  fewer : ∀ e ∈ y.edges, e.origin ≠ .ambient → e ∈ x.edges
  /-- It has all of them, apart from those on targets that it refers to outside of the build. -/
  kept : ∀ e ∈ x.edges, e.origin ≠ .ambient →
    e ∈ y.edges ∨ ∃ e' ∈ y.edges, e'.target = e.target ∧ e'.origin = .ambient

namespace Bound.Beside

variable {free : String → Bool} {b b' : Bound} {x y : Symbol}

theorem answer?_of_free (h : b.Beside free b') (hw : ∀ l ∈ ls, l.name ∈ b.deferred.map Deferral.name)
    {n : String} (hn : free n = true) : LateImport.answer? ls n = none := by
  apply LateImport.answer?_eq_none
  intro hm
  obtain ⟨l, hl, rfl⟩ := List.mem_map.mp hm
  obtain ⟨d, hd, hdn⟩ := List.mem_map.mp (hw l hl)
  have hled := h.waits d hd
  rw [hdn, hn] at hled
  cases hled

theorem target_mem (h : b.Beside free b') {t : String}
    (ht : t ∈ b.symbol.edges.map Dependency.target) :
    t ∈ b'.symbol.edges.map Dependency.target := by
  obtain ⟨d, hd, rfl⟩ := List.mem_map.mp ht
  by_cases hdo : d.origin = .ambient
  · obtain ⟨d', hd', hdt, -⟩ := h.outer d hd hdo
    exact List.mem_map.mpr ⟨d', hd', hdt⟩
  · exact List.mem_map_of_mem ((h.mem_edges_iff hdo).mp hd)

theorem target_mem_or (h : b.Beside free b') {t : String}
    (ht : t ∈ b'.symbol.edges.map Dependency.target) :
    t ∈ b.symbol.edges.map Dependency.target ∨
      ∃ d ∈ b'.symbol.edges, d.target = t ∧ d.origin = .ambient := by
  obtain ⟨d, hd, rfl⟩ := List.mem_map.mp ht
  by_cases hdo : d.origin = .ambient
  · exact .inr ⟨d, hd, rfl, hdo⟩
  · exact .inl (List.mem_map_of_mem ((h.mem_edges_iff hdo).mpr hd))

section Told

variable (h : b.Beside free b') (hx : x.orphan = b.symbol.orphan.learnAll ls)
  (hy : y.orphan = b'.symbol.orphan.learnAll ls') (hp : ls.Perm ls')

include h hx hy

theorem bare_eq : x.bare = y.bare := by
  rw [← Symbol.bare_orphan x, ← Symbol.bare_orphan y, hx, hy, Symbol.bare_learnAll,
    Symbol.bare_learnAll, Symbol.bare_orphan, Symbol.bare_orphan, h.bare]

include hp

theorem classInfo_eq (hn : (ls.map LateImport.name).Nodup) (hparent : ∀ l ∈ ls, l.parent = none) :
    x.classInfo.map ClassInfo.orphan = y.classInfo.map ClassInfo.orphan := by
  show x.orphan.classInfo = y.orphan.classInfo
  rw [hx, hy]
  apply Symbol.classInfo_learnAll_congr h.classInfo hparent (fun l hl => hparent l (hp.mem_iff.mpr hl))
    hn ((hp.map _).nodup_iff.mp hn)
  intro c n _ _
  rw [LateImport.answer?_perm hp hn]

/-- **What is written**: nothing for free names, and the same for any other. -/
theorem replacements_eq (hn : (ls.map LateImport.name).Nodup)
    (hw : ∀ l ∈ ls, l.name ∈ b.deferred.map Deferral.name) :
    x.replacements false = y.replacements false := by
  have hanswer : LateImport.answer? ls = LateImport.answer? ls' := LateImport.answer?_perm hp hn
  have hnone : ∀ n, (!free n) = false → LateImport.answer? ls n = none := fun n hfree =>
    h.answer?_of_free hw (by simpa using hfree)
  rw [Symbol.replacements_of_learnAll hx (q := fun n => !free n) hnone,
    Symbol.replacements_of_learnAll hy (q := fun n => !free n) (hanswer ▸ hnone), h.table, hanswer]
  · exact fun n m hfree hm => h.unwritten n m (by simpa using hfree) (.inr hm)
  · exact fun n m hfree hm => h.unwritten n m (by simpa using hfree) (.inl hm)

theorem mem_edges_of_mem (ht : (ls.map LateImport.target).Nodup) {e : Dependency} (he : e ∈ y.edges)
    (ho : e.origin ≠ .ambient) : e ∈ x.edges := by
  rw [Symbol.mem_edges_of_learnAll hy ((hp.map _).nodup_iff.mp ht)] at he
  rw [Symbol.mem_edges_of_learnAll hx ht]
  rcases he with he | ⟨l, hl, rfl, hq, hm⟩
  · exact .inl ((h.mem_edges_iff ho).mpr he)
  · rw [← show b.symbol.qualified = b'.symbol.qualified from (congrArg Symbol.qualified h.bare :)]
      at hq
    exact .inr ⟨l, hp.mem_iff.mpr hl, rfl, hq, fun hm' => hm (h.target_mem hm')⟩

/-- **Those of the first**: the second may refer to the target outside of the build instead. -/
theorem mem_edges_or_of_mem (ht : (ls.map LateImport.target).Nodup) {e : Dependency}
    (he : e ∈ x.edges) (ho : e.origin ≠ .ambient) :
    e ∈ y.edges ∨ ∃ e' ∈ y.edges, e'.target = e.target ∧ e'.origin = .ambient := by
  have hye : ∀ {d}, d ∈ y.edges ↔ _ :=
    Symbol.mem_edges_of_learnAll hy ((hp.map _).nodup_iff.mp ht)
  rw [Symbol.mem_edges_of_learnAll hx ht] at he
  rcases he with he | ⟨l, hl, rfl, hq, hm⟩
  · exact .inl (hye.mpr (.inl ((h.mem_edges_iff ho).mp he)))
  · rw [show b.symbol.qualified = b'.symbol.qualified from (congrArg Symbol.qualified h.bare :)]
      at hq
    by_cases hm' : l.target ∈ b'.symbol.edges.map Dependency.target
    · obtain ⟨d, hd, hdt, hdo⟩ := (h.target_mem_or hm').resolve_left hm
      exact .inr ⟨d, hye.mpr (.inl hd), hdt, hdo⟩
    · exact .inl (hye.mpr (.inr ⟨l, hp.mem_iff.mp hl, rfl, hq, hm'⟩))

/-- **Two symbols of one declaration are told the same imports.** -/
theorem agrees (hn : (ls.map LateImport.name).Nodup) (ht : (ls.map LateImport.target).Nodup)
    (hparent : ∀ l ∈ ls, l.parent = none)
    (hw : ∀ l ∈ ls, l.name ∈ b.deferred.map Deferral.name) : x.Agrees y := by
  have hbare := h.bare_eq hx hy
  have hinfo := h.classInfo_eq hx hy hp hn hparent
  have hspan : x.span = y.span := (congrArg Symbol.span hbare :)
  have hrender : x.render = y.render :=
    Symbol.render_congr hinfo hspan (congrArg Symbol.content hbare :)
      (h.replacements_eq hx hy hp hn hw)
  exact
    { bare := hbare
      classInfo := hinfo
      compiled := Symbol.compiled_congr hrender hspan
      constructorText := Symbol.constructorText_congr hinfo hrender
      memberText := Symbol.memberText?_congr hinfo hrender
      fewer := fun _ => h.mem_edges_of_mem hx hy hp ht
      kept := fun _ => h.mem_edges_or_of_mem hx hy hp ht }

end Told

end Bound.Beside

end Bindery
