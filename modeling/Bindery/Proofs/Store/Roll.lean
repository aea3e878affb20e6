import Bindery.Proofs.Store.Names
import Bindery.Proofs.Symbol.Bare

/-!
# The roll of a store

A roll lists the symbols of a store in the order in which they were enrolled, each with its unit and
whether its short name is public. Everything a store holds can be read off its roll.

* `Store.Lists`: the store holds exactly what the roll says.
* **`Store.Lists.enroll`**: a newcomer goes to the end of the roll.
* **`Store.Lists.dismissAll`**: those who are dismissed leave it.
* **`Store.Lists.get?_qualified_dismissAll`**: their qualified names belong to nobody.
* **`Store.Lists.byShortName?_eq`**: a short name belongs to the last on the roll who has it.
-/

namespace Bindery

/-- An entry of a roll. -/
structure Listing where
  id : SymbolId
  uri : String
  /-- The symbol is found under its short name. -/
  isPublic : Bool

namespace Store

/-- Whether an id is that of a symbol with this short name. -/
def isNamed (s : Store) (name : String) (id : SymbolId) : Bool :=
  (s.symbol? id).any (·.name = name)

/-- The ids on a roll of those with a public short name, in order. -/
def publicIds (s : Store) (roll : List Listing) (name : String) : List SymbolId :=
  (roll.filter fun e => e.isPublic && s.isNamed name e.id).map Listing.id

/-- **What a roll says about a store.** -/
structure Lists (s : Store) (roll : List Listing) : Prop where
  arena : s.symbols.Sound
  names : s.names.Sound
  nodup : (roll.map Listing.id).Nodup
  live : ∀ id, (s.symbol? id).isSome ↔ id ∈ roll.map Listing.id
  uri : ∀ e ∈ roll, ∀ x, s.symbol? e.id = some x → x.uri = e.uri
  holders : ∀ n, s.names.holders n = (s.publicIds roll n).reverse
  qualified : ∀ q id, s.names.qualified.get? q = some id →
    ∃ x, s.symbol? id = some x ∧ x.qualified = q

theorem lists_empty : ({} : Store).Lists [] where
  arena := Arena.sound_empty
  names := NameTable.sound_empty
  nodup := List.nodup_nil
  live id := by simp [symbol?, Arena.get?]
  uri _ h := absurd h List.not_mem_nil
  holders _ := rfl
  qualified q id h := by cases h

theorem isNamed_iff {s : Store} {name : String} {id : SymbolId} :
    s.isNamed name id = true ↔ ∃ x, s.symbol? id = some x ∧ x.name = name := by
  simp [isNamed, Option.any_eq_true]

theorem Lists.nodup_holders {s : Store} {roll : List Listing} (h : s.Lists roll) (n : String) :
    (s.names.holders n).Nodup := by
  rw [h.holders, List.nodup_reverse]
  exact h.nodup.sublist (List.filter_sublist.map _)

/-! ## Enrolling -/

theorem names_enroll (s : Store) (x : Symbol) (withShort : Bool) :
    (s.enroll x withShort).1.names =
      (s.names.register x.name x.qualified (s.enroll x withShort).2.1 withShort).1 := rfl

section Enroll

variable {s : Store} {roll : List Listing} (h : s.Lists roll) (x : Symbol) (withShort : Bool)

include h

theorem Lists.symbol?_enroll_fresh : s.symbol? (s.enroll x withShort).2.1 = none :=
  Arena.get?_insert_fresh h.arena x

theorem Lists.get?_enroll (id : SymbolId) :
    (s.enroll x withShort).1.symbol? id =
      if id = (s.enroll x withShort).2.1 then some x else s.symbol? id :=
  Arena.get?_insert h.arena x id

theorem Lists.fresh_not_mem : (s.enroll x withShort).2.1 ∉ roll.map Listing.id := fun hm => by
  have := (h.live _).mpr hm
  rw [h.symbol?_enroll_fresh] at this
  cases this

theorem Lists.isNamed_enroll {e : Listing} (he : e ∈ roll) (n : String) :
    (s.enroll x withShort).1.isNamed n e.id = s.isNamed n e.id := by
  have hne : e.id ≠ (s.enroll x withShort).2.1 := fun hc =>
    h.fresh_not_mem x withShort (hc ▸ List.mem_map_of_mem he)
  rw [isNamed, h.get?_enroll, if_neg hne, isNamed]

theorem Lists.publicIds_enroll (n : String) :
    (s.enroll x withShort).1.publicIds
        (roll ++ [⟨(s.enroll x withShort).2.1, x.uri, withShort⟩]) n =
      s.publicIds roll n ++
        if withShort && x.name = n then [(s.enroll x withShort).2.1] else [] := by
  have hold : roll.filter (fun e => e.isPublic && (s.enroll x withShort).1.isNamed n e.id) =
      roll.filter fun e => e.isPublic && s.isNamed n e.id :=
    List.filter_congr fun e he => by rw [h.isNamed_enroll x withShort he]
  have hnew : (s.enroll x withShort).1.isNamed n (s.enroll x withShort).2.1 =
      (x.name = n : Bool) := by
    rw [isNamed, h.get?_enroll, if_pos rfl]
    rfl
  rw [publicIds, List.filter_append, hold, List.map_append, publicIds]
  congr 1
  rw [List.filter_singleton, hnew]
  by_cases hw : (withShort && decide (x.name = n)) = true
  · simp [hw]
  · simp [hw]

theorem Lists.fresh_not_mem_holders (n : String) :
    (s.enroll x withShort).2.1 ∉ s.names.holders n := fun hm => by
  rw [h.holders, List.mem_reverse, publicIds] at hm
  obtain ⟨e, he, hi⟩ := List.mem_map.mp hm
  exact h.fresh_not_mem x withShort (hi ▸ List.mem_map_of_mem (List.mem_of_mem_filter he))

theorem Lists.holders_enroll (n : String) : (s.enroll x withShort).1.names.holders n =
    ((s.enroll x withShort).1.publicIds
      (roll ++ [⟨(s.enroll x withShort).2.1, x.uri, withShort⟩]) n).reverse := by
  have hhold := h.fresh_not_mem_holders x withShort x.name
  rw [h.publicIds_enroll, List.reverse_append, ← h.holders, names_enroll]
  cases withShort with
  | false => simp
  | true =>
    rw [NameTable.holders_register h.names (h.nodup_holders _),
      List.filter_eq_self.mpr fun k hk => decide_eq_true (ne_of_mem_of_not_mem hk hhold)]
    by_cases hn : n = x.name
    · simp [hn]
    · simp [hn, Ne.symm hn]

theorem Lists.qualified_enroll {q : String} {k : SymbolId}
    (hq : (s.enroll x withShort).1.names.qualified.get? q = some k) :
    ∃ y, (s.enroll x withShort).1.symbol? k = some y ∧ y.qualified = q := by
  rw [names_enroll, NameTable.get?_qualified_register] at hq
  rw [h.get?_enroll]
  by_cases hqx : q = x.qualified
  · rw [if_pos hqx, Option.some.injEq] at hq
    exact ⟨x, if_pos hq.symm, hqx.symm⟩
  · rw [if_neg hqx] at hq
    obtain ⟨y, hy, hyq⟩ := h.qualified q k hq
    have hne : k ≠ (s.enroll x withShort).2.1 := fun hc => by
      rw [hc, h.symbol?_enroll_fresh] at hy
      cases hy
    exact ⟨y, by rw [if_neg hne, hy], hyq⟩

/-- **A newcomer goes to the end of the roll.** -/
theorem Lists.enroll : (s.enroll x withShort).1.Lists
    (roll ++ [⟨(s.enroll x withShort).2.1, x.uri, withShort⟩]) := by
  have hfresh := h.fresh_not_mem x withShort
  refine ⟨h.arena.insert x, h.names.register withShort, ?_, fun k => ?_, ?_,
    h.holders_enroll x withShort, fun q k hq => h.qualified_enroll x withShort hq⟩
  · rw [List.map_append]
    refine List.nodup_append.mpr ⟨h.nodup, List.nodup_singleton _, ?_⟩
    rintro a ha b hb rfl
    rw [List.map_singleton, List.mem_singleton] at hb
    rw [hb] at ha
    exact hfresh ha
  · rw [h.get?_enroll, List.map_append, List.mem_append, ← h.live k, List.map_singleton,
      List.mem_singleton]
    by_cases hk : k = (s.enroll x withShort).2.1 <;> simp [hk]
  · intro e he y hy
    rw [h.get?_enroll] at hy
    rcases List.mem_append.mp he with he | he
    · have hne : e.id ≠ (s.enroll x withShort).2.1 := fun hc =>
        hfresh (hc ▸ List.mem_map_of_mem he)
      rw [if_neg hne] at hy
      exact h.uri e he y hy
    · rw [List.mem_singleton] at he
      subst he
      rw [if_pos rfl] at hy
      cases hy
      rfl

end Enroll

/-! ## Dismissing -/

theorem dismiss_of_none {s : Store} {id : SymbolId} (hx : s.symbol? id = none) :
    s.dismiss id = s := by
  have hr := Arena.snd_remove s.symbols id
  rw [show s.symbols.get? id = none from hx] at hr
  unfold dismiss
  split
  · rfl
  · rename_i he
    rw [he] at hr
    cases hr

theorem dismiss_of_some {s : Store} {id : SymbolId} {x : Symbol} (hx : s.symbol? id = some x) :
    s.dismiss id = ⟨(s.symbols.remove id).1, s.names.unregister x.name x.qualified id⟩ := by
  have hr := Arena.snd_remove s.symbols id
  rw [show s.symbols.get? id = some x from hx] at hr
  unfold dismiss
  split
  · rename_i he
    rw [he] at hr
    cases hr
  · rename_i he
    rw [he] at hr
    cases hr
    rw [he]

theorem symbol?_dismiss (s : Store) (id k : SymbolId) :
    (s.dismiss id).symbol? k = if k = id then none else s.symbol? k := by
  cases hx : s.symbol? id with
  | none =>
    rw [dismiss_of_none hx]
    by_cases hk : k = id
    · rw [if_pos hk, hk, hx]
    · rw [if_neg hk]
  | some x =>
    rw [dismiss_of_some hx]
    exact Arena.get?_remove s.symbols id k

theorem symbol?_dismissAll (ids : List SymbolId) (s : Store) (k : SymbolId) :
    (ids.foldl dismiss s).symbol? k = if k ∈ ids then none else s.symbol? k := by
  induction ids generalizing s with
  | nil => simp
  | cons id ids ih =>
    rw [List.foldl_cons, ih, symbol?_dismiss]
    by_cases hk : k = id
    · simp [hk]
    · simp [hk]

theorem count_dismiss {s : Store} {id : SymbolId} (h : (s.symbol? id).isSome = true) :
    (s.dismiss id).symbols.count = s.symbols.count - 1 := by
  obtain ⟨x, hx⟩ := Option.isSome_iff_exists.mp h
  rw [dismiss_of_some hx]
  exact Arena.count_remove h

theorem count_dismissAll {s : Store} {ids : List SymbolId} (hn : ids.Nodup)
    (h : ∀ id ∈ ids, (s.symbol? id).isSome = true) :
    (ids.foldl dismiss s).symbols.count = s.symbols.count - ids.length := by
  induction ids generalizing s with
  | nil => rfl
  | cons id ids ih =>
    rw [List.nodup_cons] at hn
    rw [List.forall_mem_cons] at h
    rw [List.foldl_cons, ih hn.2, count_dismiss h.1, List.length_cons, Nat.sub_sub, Nat.add_comm 1]
    intro k hk
    rw [symbol?_dismiss, if_neg (ne_of_mem_of_not_mem hk hn.1)]
    exact h.2 k hk

theorem publicIds_dismiss (s : Store) (roll : List Listing) (id : SymbolId) (n : String) :
    (s.dismiss id).publicIds (roll.filter (·.id ≠ id)) n =
      (s.publicIds roll n).filter (· ≠ id) := by
  unfold publicIds
  rw [List.filter_map, List.filter_filter, List.filter_filter]
  congr 1
  refine List.filter_congr fun e _ => ?_
  by_cases hne : e.id = id
  · simp [hne]
  · rw [isNamed, symbol?_dismiss, if_neg hne]
    simp [hne, isNamed]

section Dismiss

variable {s : Store} {roll : List Listing} (h : s.Lists roll)

include h

theorem Lists.filter_of_none {id : SymbolId} (hx : s.symbol? id = none) :
    roll.filter (·.id ≠ id) = roll := List.filter_eq_self.mpr fun e he => by
  have hne : e.id ≠ id := fun hc => by
    have := (h.live id).mpr (hc ▸ List.mem_map_of_mem he)
    rw [hx] at this
    cases this
  simpa using hne

theorem Lists.holders_dismiss {id : SymbolId} {x : Symbol} (hx : s.symbol? id = some x)
    (n : String) :
    (s.names.unregister x.name x.qualified id).holders n =
      (s.names.holders n).filter (· ≠ id) := by
  rw [NameTable.holders_unregister (h.nodup_holders _)]
  by_cases hn : n = x.name
  · rw [if_pos hn, hn]
  rw [if_neg hn, eq_comm, List.filter_eq_self]
  intro k hk
  have hne : k ≠ id := fun hc => by
    rw [h.holders, List.mem_reverse, publicIds] at hk
    obtain ⟨e, he, rfl⟩ := List.mem_map.mp hk
    have hp := (List.mem_filter.mp he).2
    rw [Bool.and_eq_true, isNamed_iff, hc, hx] at hp
    obtain ⟨_, y, hy, hyn⟩ := hp
    cases hy
    exact hn hyn.symm
  simpa using hne

/-- **Who is dismissed leaves the roll.** -/
theorem Lists.dismiss (id : SymbolId) : (s.dismiss id).Lists (roll.filter (·.id ≠ id)) := by
  cases hx : s.symbol? id with
  | none =>
    rw [dismiss_of_none hx, h.filter_of_none hx]
    exact h
  | some x =>
    have hd := dismiss_of_some hx
    have hget := symbol?_dismiss s id
    refine ⟨by rw [hd]; exact h.arena.remove id, by rw [hd]; exact h.names.unregister,
      h.nodup.sublist (List.filter_sublist.map _), fun k => ?_, ?_, fun n => ?_, fun q k hq => ?_⟩
    · have hf : (roll.filter (·.id ≠ id)).map Listing.id =
          (roll.map Listing.id).filter (· ≠ id) := by
        rw [List.filter_map]
        rfl
      rw [hget, hf, List.mem_filter, ← h.live]
      by_cases hk : k = id <;> simp [hk]
    · intro e he y hy
      rw [hget] at hy
      split_ifs at hy
      exact h.uri e (List.mem_of_mem_filter he) y hy
    · rw [publicIds_dismiss, ← List.filter_reverse, ← h.holders, hd]
      exact h.holders_dismiss hx n
    · rw [hd] at hq
      change (s.names.unregister x.name x.qualified id).qualified.get? q = some k at hq
      rw [NameTable.get?_qualified_unregister] at hq
      split_ifs at hq with hc
      obtain ⟨y, hy, hyq⟩ := h.qualified q k hq
      have hne : k ≠ id := fun hk => by
        rw [hk, hx] at hy
        cases hy
        exact hc ⟨hyq.symm, by rw [hyq, hq, hk]⟩
      exact ⟨y, by rw [hget, if_neg hne, hy], hyq⟩

/-- **All who are dismissed leave the roll.** -/
theorem Lists.dismissAll (ids : List SymbolId) :
    (ids.foldl Store.dismiss s).Lists (roll.filter (·.id ∉ ids)) := by
  induction ids generalizing s roll with
  | nil => simpa using h
  | cons id ids ih =>
    have hf : roll.filter (·.id ∉ id :: ids) =
        (roll.filter (·.id ≠ id)).filter (·.id ∉ ids) := by
      rw [List.filter_filter]
      exact List.filter_congr fun e _ => by simp [not_or, Bool.and_comm]
    rw [hf]
    exact ih (h.dismiss id)

theorem Lists.get?_qualified_dismiss (id : SymbolId) (q : String) :
    (s.dismiss id).names.qualified.get? q = (s.names.qualified.get? q).filter (· ≠ id) := by
  have hfilter : ∀ k, s.names.qualified.get? q = some k → k ≠ id →
      (s.names.qualified.get? q).filter (· ≠ id) = s.names.qualified.get? q := fun k hk hne => by
    rw [hk, Option.filter_some, if_pos (by simpa using hne)]
  cases hx : s.symbol? id with
  | none =>
    rw [dismiss_of_none hx]
    cases hk : s.names.qualified.get? q with
    | none => rfl
    | some k =>
      obtain ⟨y, hy, -⟩ := h.qualified q k hk
      have hne : k ≠ id := fun e => by
        rw [e, hx] at hy
        cases hy
      rw [← hk, hfilter k hk hne]
  | some x =>
    rw [dismiss_of_some hx]
    refine (NameTable.get?_qualified_unregister q).trans ?_
    cases hk : s.names.qualified.get? q with
    | none => rw [ite_self, Option.filter_none]
    | some k =>
      by_cases hne : k = id
      · obtain ⟨y, hy, hyq⟩ := h.qualified q k hk
        rw [hne, hx, Option.some.injEq] at hy
        rw [hy, hyq, if_pos ⟨rfl, by rw [hk, hne]⟩, hne, Option.filter_some, if_neg (by simp)]
      · rw [if_neg, ← hk, hfilter k hk hne]
        rintro ⟨hq, hid⟩
        rw [← hq, hk, Option.some.injEq] at hid
        exact hne hid

/-- **The qualified names of all who are dismissed** belong to nobody. -/
theorem Lists.get?_qualified_dismissAll (ids : List SymbolId) (q : String) :
    (ids.foldl Store.dismiss s).names.qualified.get? q =
      (s.names.qualified.get? q).filter (· ∉ ids) := by
  induction ids generalizing s roll with
  | nil =>
    rw [List.foldl_nil]
    cases s.names.qualified.get? q <;> rfl
  | cons id ids ih =>
    rw [List.foldl_cons, ih (h.dismiss id), h.get?_qualified_dismiss]
    cases s.names.qualified.get? q with
    | none => rfl
    | some k => by_cases hk : k = id <;> simp [Option.filter_some, hk]

end Dismiss

/-! ## Change -/

theorem publicIds_congr {s s' : Store}
    (hb : ∀ id, (s'.symbol? id).map Symbol.bare = (s.symbol? id).map Symbol.bare)
    (roll : List Listing) (n : String) : s'.publicIds roll n = s.publicIds roll n := by
  have hnamed : ∀ s : Store, ∀ id, s.isNamed n id =
      ((s.symbol? id).map Symbol.bare).any (·.name = n) := fun s id => by
    rw [Option.any_map]
    simp only [Symbol.name_bare]
    rfl
  simp only [publicIds, hnamed, hb]

/-- **The roll says nothing about references**: a store with the same declarations and names has the
same roll. -/
theorem Lists.congr {s s' : Store} {roll : List Listing} (h : s.Lists roll)
    (ha : s'.symbols.Sound) (hn : s'.names = s.names)
    (hb : ∀ id, (s'.symbol? id).map Symbol.bare = (s.symbol? id).map Symbol.bare) :
    s'.Lists roll := by
  have hsome : ∀ id, (s'.symbol? id).isSome = (s.symbol? id).isSome := fun id => by
    rw [← Option.isSome_map (f := Symbol.bare), hb, Option.isSome_map]
  have hex : ∀ {id x}, s'.symbol? id = some x → ∃ y, s.symbol? id = some y ∧ y.bare = x.bare :=
    fun {id x} hx => by
      have := hb id
      rw [hx, Option.map_some, eq_comm, Option.map_eq_some_iff] at this
      exact this
  have hex' : ∀ {id x}, s.symbol? id = some x → ∃ y, s'.symbol? id = some y ∧ y.bare = x.bare :=
    fun {id x} hx => by
      have := hb id
      rw [hx, Option.map_some, Option.map_eq_some_iff] at this
      exact this
  refine ⟨ha, hn ▸ h.names, h.nodup, fun id => by rw [hsome, h.live], ?_, fun n => ?_, ?_⟩
  · intro e he x hx
    obtain ⟨y, hy, hb⟩ := hex hx
    rw [← Symbol.uri_of_bare hb, h.uri e he y hy]
  · rw [hn, h.holders, publicIds_congr hb]
  · intro q id hq
    rw [hn] at hq
    obtain ⟨y, hy, hyq⟩ := h.qualified q id hq
    obtain ⟨x, hx, hb⟩ := hex' hy
    exact ⟨x, hx, (Symbol.qualified_of_bare hb).trans hyq⟩

/-! ## Reading a roll -/

/-- **A short name belongs to the last on the roll who has it.** -/
theorem Lists.byShortName?_eq {s : Store} {roll : List Listing} (h : s.Lists roll) (n : String) :
    s.names.byShortName? n = (s.publicIds roll n).getLast? := by
  rw [NameTable.byShortName?_eq_head? h.names, h.holders, List.head?_reverse]

theorem Lists.isSome_byShortName? {s : Store} {roll : List Listing} (h : s.Lists roll)
    (n : String) : (s.byShortName? n).isSome = (s.names.byShortName? n).isSome := by
  rw [byShortName?]
  cases hn : s.names.byShortName? n with
  | none => rfl
  | some id =>
    rw [h.byShortName?_eq] at hn
    obtain ⟨e, he, rfl⟩ := List.mem_map.mp (List.mem_of_getLast? hn)
    exact (h.live e.id).mpr (List.mem_map_of_mem (List.mem_of_mem_filter he))

theorem Lists.byShortName?_enroll {s : Store} {roll : List Listing} (h : s.Lists roll) (x : Symbol)
    (withShort : Bool) (n : String) : (s.enroll x withShort).1.byShortName? n =
      if withShort = true ∧ x.name = n then some x else s.byShortName? n := by
  have hold : ∀ id, s.names.byShortName? n = some id →
      (s.enroll x withShort).1.symbol? id = s.symbol? id := by
    intro id hid
    have hne : id ≠ (s.enroll x withShort).2.1 := fun hc => by
      rw [h.byShortName?_eq] at hid
      obtain ⟨e, he, rfl⟩ := List.mem_map.mp (List.mem_of_getLast? hid)
      exact h.fresh_not_mem x withShort (hc ▸ List.mem_map_of_mem (List.mem_of_mem_filter he))
    rw [h.get?_enroll, if_neg hne]
  rw [byShortName?, (h.enroll x withShort).byShortName?_eq, h.publicIds_enroll]
  by_cases hw : withShort = true ∧ x.name = n
  · rw [if_pos hw, if_pos (by simpa using hw), List.getLast?_concat, Option.bind_some,
      h.get?_enroll, if_pos rfl]
  · rw [if_neg hw, if_neg (by simpa using hw), List.append_nil, ← h.byShortName?_eq, byShortName?]
    cases hn : s.names.byShortName? n with
    | none => rfl
    | some id => exact hold id hn

/-- A newcomer with a public name is told who held it. -/
theorem Lists.previous_enroll {s : Store} {roll : List Listing} (h : s.Lists roll) (x : Symbol)
    (withShort : Bool) : (s.enroll x withShort).2.2.bind (s.enroll x withShort).1.symbol? =
      if withShort then s.byShortName? x.name else none := by
  have hhold := h.fresh_not_mem_holders x withShort x.name
  have hprev : (s.enroll x withShort).2.2 = if withShort then
      (s.names.byShortName? x.name).filter (· ≠ (s.enroll x withShort).2.1) else none :=
    NameTable.snd_register withShort
  rw [hprev]
  cases withShort with
  | false => rfl
  | true =>
    rw [if_pos rfl, if_pos rfl, byShortName?]
    cases hn : s.names.byShortName? x.name with
    | none => rfl
    | some k =>
      have hne : k ≠ (s.enroll x true).2.1 := fun hc => hhold <| by
        rw [NameTable.holders, show s.names.short.get? x.name = some k from hn, hc]
        exact List.mem_cons_self
      have hkeep : (some k).filter (· ≠ (s.enroll x true).2.1) = some k := by
        simp [Option.filter, hne]
      rw [hkeep, Option.bind_some, Option.bind_some, h.get?_enroll, if_neg hne]

theorem mem_publicIds {s : Store} {roll : List Listing} {n : String} {id : SymbolId} :
    id ∈ s.publicIds roll n ↔
      ∃ e ∈ roll, e.id = id ∧ e.isPublic = true ∧ ∃ x, s.symbol? id = some x ∧ x.name = n := by
  simp only [publicIds, List.mem_map, List.mem_filter, Bool.and_eq_true, isNamed_iff]
  constructor
  · rintro ⟨e, ⟨he, hp, hx⟩, rfl⟩
    exact ⟨e, he, rfl, hp, hx⟩
  · rintro ⟨e, he, rfl, hp, hx⟩
    exact ⟨e, ⟨he, hp, hx⟩, rfl⟩

end Store

end Bindery
