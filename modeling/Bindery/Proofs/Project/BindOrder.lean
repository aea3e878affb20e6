import Bindery.Proofs.Project.Informed
import Bindery.Proofs.Project.Standing
import Bindery.Proofs.Symbol.Reordered

/-!
# The order of two units

Two units are bound in either order. The symbols of the one come out the same, whether the other one
was there when it was bound or answers its imports later, as long as the names that are known by then
stand for themselves. The bases of its classes do not depend on that.

* `Scope.eq_of_qualified`: a qualified name ends in the short name.
* `Symbol.Informed`: a symbol bound where less and where more is known.
* **`Project.Stands.informed`**, `Project.Stands.imports_congr`: a unit that stands alike in two
  projects.
* `Project.Tracks.mem_affected_iff`: what two units can affect.
* `Project.bindBoth`, `Project.publicName?`: two units, and what is known of the one.
* **`Project.agrees_bindBoth`**: both orders.
-/

namespace Bindery

/-! ## Qualified names -/

theorem Scope.eq_of_qualified {path path' : List String} {n n' : String}
    (hn : isQualified n = false) (hn' : isQualified n' = false)
    (h : ".".intercalate (path ++ [n]) = ".".intercalate (path' ++ [n'])) : n = n' := by
  have hlast : ∀ {path : List String} {n : String}, isQualified n = false →
      (".".intercalate (path ++ [n])).toList.reverse.takeWhile (· ≠ '.') = n.toList.reverse := by
    intro path n hn
    have hall : ∀ c ∈ n.toList.reverse, decide (c ≠ '.') = true := by
      intro c hc
      have hdot : '.' ∉ n.toList := by simpa [isQualified] using hn
      simp only [decide_eq_true_eq]
      rintro rfl
      exact hdot (List.mem_reverse.mp hc)
    cases path with
    | nil => simpa using List.takeWhile_eq_self_iff.mpr hall
    | cons p path =>
      rw [String.intercalate_append_of_ne_nil (by simp) (by simp), String.intercalate_singleton]
      simp only [String.toList_append, List.reverse_append]
      rw [List.takeWhile_append_of_pos hall]
      simp
  have hlist := congrArg (fun q : String => q.toList.reverse.takeWhile (· ≠ '.')) h
  rw [hlast hn, hlast hn'] at hlist
  exact String.toList_injective (List.reverse_injective hlist)

/-- **A symbol bound where less and where more is known.** -/
structure Symbol.Informed (scope : Scope) (tree : Tree) (known : String → Option String)
    (x y : Symbol) : Prop where
  bare : x.bare = y.bare
  /-- Bases and members. -/
  classInfo : tree.HasNamedBases → x.classInfo.map ClassInfo.orphan = y.classInfo.map ClassInfo.orphan
  agrees : scope.Apart tree known x.span → x.Agrees y

namespace Project

variable {p q : Project}

theorem Recalls.qualified_eq (hr : p.Recalls fun _ => True) (hl : p.store.Lists p.roll)
    {id : SymbolId} {x : Symbol} (hx : p.symbol? id = some x) :
    ∃ path, x.qualified = ".".intercalate (path ++ [x.name]) := by
  obtain ⟨_, _, past, _, _, _, hp⟩ := hr.past hl hx
  obtain ⟨d, hd, hb⟩ := hp.declared
  obtain ⟨_, _, _, _, s, hs, he⟩ := Context.newSymbol?_of_mem_declarations hd
  have hbare : x.bare = d.1.bare := by
    rw [hp.symbol, Symbol.bare_learnAll]
    exact hb.bare
  obtain ⟨_, _, _, _, rfl⟩ := Context.exists_of_newSymbol? hs
  rw [Symbol.qualified_of_bare hbare, Symbol.name_of_bare hbare, he]
  exact ⟨_, rfl⟩

theorem Recalls.exportedName?_eq (hr : p.Recalls fun _ => True) (hl : p.store.Lists p.roll)
    {uri n target : String} (h : p.exportedName? uri n = some target) :
    ∃ path, target = ".".intercalate (path ++ [n]) := by
  obtain ⟨id, -, x, hx, rfl, rfl⟩ := mem_of_exportedName? h
  exact hr.qualified_eq hl hx

/-! ## A unit in two projects -/

theorem Serves.map_bare {scope : Scope} {id : SymbolId} {b : Bound} (h : p.Serves scope id b) :
    (p.symbol? id).map Symbol.bare = some b.symbol.bare := by
  obtain ⟨late, hx, -, -⟩ := h.told
  obtain ⟨x, hx, ho⟩ := Option.map_eq_some_iff.mp hx
  rw [hx, Option.map_some, ← Symbol.bare_orphan, ho, Symbol.bare_learnAll, Symbol.bare_orphan]

theorem Stands.exportedName?_congr {scope : Scope} {bs bs' : List Bound} (h : p.Stands scope bs)
    (h' : q.Stands scope bs')
    (hb : List.Forall₂ (fun b b' : Bound => b.symbol.bare = b'.symbol.bare) bs bs') (n : String) :
    p.exportedName? scope.uri n = q.exportedName? scope.uri n := by
  apply Project.exportedName?_congr
  apply (partners_comp h.symbols (partners_comp hb h'.symbols.flip)).imp
  intro id id' ⟨b, hserves, b', hbare, hserves'⟩
  rw [hserves.map_bare, Serves.map_bare hserves', hbare]

section Alike

variable {s scope : Scope} {bs bs' : List Bound} {b b' : Bound} {known : String → Option String}
  {l : LateImport} {v n : String} (h : p.Stands scope bs) (h' : q.Stands scope bs')
  (hs : p.IsSettled) (hs' : q.IsSettled)
  (hexp : ∀ uri n, p.exportedName? uri n = q.exportedName? uri n)

include h hs in
theorem Stands.exists_answered_iff {target : String} :
    (∃ l, p.Answered scope b l ∧ l.name = n ∧ l.target = target) ↔
      n ∈ b.deferred.map Deferral.name ∧ ∃ source, (n, source) ∈ scope.requests ∧
        p.exportedName? source n = some target := by
  constructor
  · rintro ⟨l, ha, rfl, rfl⟩
    obtain ⟨hd, hr, ht, -⟩ := (h.answered_iff hs).mp ha
    exact ⟨List.mem_map_of_mem hd, l.source, hr, ht⟩
  · rintro ⟨hn, source, hr, ht⟩
    obtain ⟨d, hd, rfl⟩ := List.mem_map.mp hn
    exact ⟨⟨d, target, source, none⟩, (h.answered_iff hs).mpr ⟨hd, hr, ht, rfl⟩, rfl, rfl⟩

include h h' hs hs' hexp

theorem Stands.answered_congr (hb : b.deferred = b'.deferred) :
    p.Answered scope b l ↔ q.Answered scope b' l := by
  rw [h.answered_iff hs, h'.answered_iff hs', hb, hexp]

theorem Stands.answer?_congr {late late' : List LateImport}
    (hn : n ∈ b.deferred.map Deferral.name ↔ n ∈ b'.deferred.map Deferral.name)
    (hnd : (late.map LateImport.name).Nodup) (hnd' : (late'.map LateImport.name).Nodup)
    (hlate : ∀ l, l ∈ late ↔ p.Answered scope b l)
    (hlate' : ∀ l, l ∈ late' ↔ q.Answered scope b' l) :
    LateImport.answer? late n = LateImport.answer? late' n := by
  apply Option.ext
  intro target
  rw [LateImport.answer?_eq_some_iff hnd, LateImport.answer?_eq_some_iff hnd']
  simp only [hlate, hlate', h.exists_answered_iff hs, h'.exists_answered_iff hs', hn, hexp]

/-- **A unit that stands alike in two projects** has the same symbols, as far as what is known in the
second one stands for itself. -/
theorem Stands.informed (hbs : List.Forall₂ (Bound.Informed s tree known) bs bs')
    (hr : p.Recalls fun _ => True) (hl : p.store.Lists p.roll) :
    List.Forall₂ (fun id id' => ∃ x y, p.symbol? id = some x ∧ q.symbol? id' = some y ∧
      Symbol.Informed s tree known x y) (p.idsIn scope.uri) (q.idsIn scope.uri) := by
  apply (partners_comp h.symbols (partners_comp hbs h'.symbols.flip)).imp
  intro id id' ⟨b, ⟨⟨late, hx, hnd, hlate⟩, _⟩, b', hb, ⟨⟨late', hy, hnd', hlate'⟩, _⟩⟩
  obtain ⟨x, hx, hxo⟩ := Option.map_eq_some_iff.mp hx
  obtain ⟨y, hy, hyo⟩ := Option.map_eq_some_iff.mp hy
  have hparent : ∀ l ∈ late, l.parent = none := fun l hl => ((hlate l).mp hl).parent
  have hparent' : ∀ l ∈ late', l.parent = none := fun l hl => ((hlate' l).mp hl).parent
  have hxb : x.bare = b.symbol.bare := by
    rw [← Symbol.bare_orphan x, hxo, Symbol.bare_learnAll, Symbol.bare_orphan]
  have hyb : y.bare = b'.symbol.bare := by
    rw [← Symbol.bare_orphan y, hyo, Symbol.bare_learnAll, Symbol.bare_orphan]
  refine ⟨x, y, hx, hy, hxb.trans (hb.bare.trans hyb.symm), fun hn => ?classInfo, fun ha => ?agrees⟩
  case classInfo =>
    have hc := hb.cognate hn
    show x.orphan.classInfo = y.orphan.classInfo
    rw [hxo, hyo]
    apply Symbol.classInfo_learnAll_congr hc.classInfo hparent hparent' hnd hnd'
    intro c n hcb hcn
    obtain ⟨c', hcb', rfl⟩ := Option.map_eq_some_iff.mp hcb
    exact h.answer?_congr h' hs hs' hexp (hc.waits c' n hcb' hcn) hnd hnd' hlate hlate'
  case agrees =>
    have hbeside := hb.beside ((congrArg Symbol.span hxb :) ▸ ha)
    have hperm : late.Perm late' := by
      rw [List.perm_ext_iff_of_nodup (hnd.of_map _) (hnd'.of_map _)]
      intro l
      rw [hlate, hlate', h.answered_congr h' hs hs' hexp hbeside.deferred]
    -- Imports of different names are found to mean different symbols.
    have htargets : (late.map LateImport.target).Nodup := by
      apply (hnd.of_map _).map_on
      intro k hk l hlm ht
      have hk' := (hlate k).mp hk
      have hl' := (hlate l).mp hlm
      apply List.inj_on_of_nodup_map hnd hk hlm
      obtain ⟨path, hpath⟩ := hr.exportedName?_eq hl hk'.target
      obtain ⟨path', hpath'⟩ := hr.exportedName?_eq hl hl'.target
      exact Scope.eq_of_qualified (Scope.isQualified_of_not_free (hbeside.waits _ hk'.deferral))
        (Scope.isQualified_of_not_free (hbeside.waits _ hl'.deferral))
        (hpath.symm.trans (ht.trans hpath'))
    exact hbeside.agrees hxo hyo hperm hnd htargets hparent fun l hl =>
      List.mem_map_of_mem ((hlate l).mp hl).deferral

theorem Stands.imports_congr (hbs : List.Forall₂ (Bound.Beside s.isFree) bs bs') :
    v ∈ ImportGraph.neighbours p.graph.imports scope.uri ↔
      v ∈ ImportGraph.neighbours q.graph.imports scope.uri := by
  rw [h.imports, h'.imports]
  refine and_congr_right fun _ => or_congr ?_ ?_
  · apply exists_mem_congr hbs
    intro b b' hb
    refine exists_congr fun e => ⟨fun ⟨he, ho⟩ => ⟨?_, ho⟩, fun ⟨he, ho⟩ => ⟨?_, ho⟩⟩
    · exact (hb.mem_edges_iff (by simp [ho])).mp he
    · exact (hb.mem_edges_iff (by simp [ho])).mpr he
  · apply exists_mem_congr hbs
    intro b b' hb
    simp only [h.answered_congr h' hs hs' hexp hb.deferred]

end Alike

/-! ## Two units -/

theorem Tracks.mem_affected_iff (ht : p.Tracks) {u v k : String} (hne : u ≠ v)
    (hp : p.units.keys ⊆ [u, v]) :
    k ∈ p.affected v ↔ k = u ∧ v ∈ ImportGraph.neighbours p.graph.imports u := by
  have hbound : ∀ {a b : String}, b ∈ ImportGraph.neighbours p.graph.imports a → a = u ∨ a = v := by
    intro a b hm
    have hkey := ImportGraph.mem_keys_of_mem_neighbours hm
    have ha : a ∈ p.units.keys := by
      by_contra hno
      have hnone := ht.bound a (Table.get?_eq_none_iff.mpr hno)
      exact Table.get?_eq_none_iff.mp hnone hkey
    simpa using hp ha
  constructor
  · intro hk
    obtain ⟨hreach, hkv⟩ := ht.sound.mem_affected_iff.mp hk
    have hpath : k = v ∨ (k = u ∨ k = v) ∧ v ∈ ImportGraph.neighbours p.graph.imports u := by
      clear hk hkv
      induction hreach with
      | refl => exact .inl rfl
      | @step a k _ hm ih =>
        have hi : a ∈ ImportGraph.neighbours p.graph.imports k := (ht.sound.mirror _ _).mpr hm
        rcases ih with rfl | ⟨-, hv⟩
        · rcases hbound hi with rfl | rfl
          · exact .inr ⟨.inl rfl, hi⟩
          · exact .inl rfl
        · exact .inr ⟨hbound hi, hv⟩
    obtain ⟨hku, hv⟩ := hpath.resolve_left hkv
    exact ⟨hku.resolve_right hkv, hv⟩
  · rintro ⟨rfl, hv⟩
    exact ht.sound.mem_affected_iff.mpr ⟨.step .refl ((ht.sound.mirror _ _).mp hv), hne⟩

/-- The qualified name of the symbol that goes by a short name. -/
def publicName? (p : Project) (n : String) : Option String :=
  (p.store.byShortName? n).map Symbol.qualified

/-- Two units are bound, one after the other. -/
def bindBoth (p : Project) (tree tree' : Tree) (scope scope' : Scope) : Project :=
  ((p.bind tree scope).1.bind tree' scope').1

section Both

variable {tree tree' : Tree} {scope scope' : Scope} (hl : p.store.Lists p.roll)
  (hr : p.Recalls fun _ => True) (hu : p.units.keys = []) (hf : scope.IsFresh)
  (hf' : scope'.IsFresh) (hne : scope.uri ≠ scope'.uri)

include hu hne in
theorem get?_units_bind (tree : Tree) :
    (p.bind tree scope).1.units.get? scope'.uri = none := by
  have hn : p.units.get? scope.uri = none := by simp [Table.get?_eq_none_iff, hu]
  rw [Table.get?_eq_none_iff, keys_bind hn, hu]
  simpa using hne.symm

include hu hne in
theorem keys_bindBoth (tree tree' : Tree) :
    (p.bindBoth tree tree' scope scope').units.keys = [scope.uri, scope'.uri] := by
  have hn : p.units.get? scope.uri = none := by simp [Table.get?_eq_none_iff, hu]
  rw [bindBoth, keys_bind (get?_units_bind hu hne tree), keys_bind hn, hu]
  rfl

include hl hr hu hf hf' hne

theorem stands_bindBoth {bs bs' : List Bound} (hc : (p.session tree scope).Carries bs)
    (hc' : ((p.bind tree scope).1.session tree' scope').Carries bs') :
    (p.bindBoth tree tree' scope scope').Stands scope bs ∧
      (p.bindBoth tree tree' scope scope').Stands scope' bs' := by
  have hn : p.units.get? scope.uri = none := by simp [Table.get?_eq_none_iff, hu]
  have hn' := get?_units_bind hu hne tree
  have hl' : (p.bind tree scope).1.store.Lists _ := lists_bind hl tree scope
  have hr' : (p.bind tree scope).1.Recalls fun _ => True := hr.bind hl hf fun _ _ => trivial
  exact ⟨(stands_bind hl hr hn hf hc).bind hl' hr' hne.symm hn' hf', stands_bind hl' hr' hn' hf' hc'⟩

variable (hp : ∀ n, p.publicName? n = none)

include hp

/-- **In either order** both units declare the same, and the one stands alike. -/
theorem alike_bindBoth : (∃ bs bs', (p.bindBoth tree tree' scope scope').Stands scope bs ∧
      (p.bindBoth tree' tree scope' scope).Stands scope bs' ∧
        List.Forall₂ (Bound.Informed (p.unitScope tree scope) tree
          (p.bind tree' scope').1.publicName?) bs bs') ∧
    ∀ uri n, (p.bindBoth tree tree' scope scope').exportedName? uri n =
      (p.bindBoth tree' tree scope' scope).exportedName? uri n := by
  have hset := settings_bind p tree scope
  have hset' := settings_bind p tree' scope'
  have hnames : ∀ (q : Project) n, (q.store.byShortName? n).map Symbol.qualified =
      ((p.store.byShortName? n).map Symbol.qualified).or (q.publicName? n) := by
    intro q n
    rw [← publicName?, ← publicName?, hp, Option.none_or]
  obtain ⟨bs, bs', hc, hc', hbs⟩ := informed_session hset'.1.symm hset'.2.symm hl
    (lists_bind hl tree' scope') hf tree (hnames _)
  obtain ⟨cs, cs', hd, hd', hcs⟩ := informed_session hset.1.symm hset.2.symm hl
    (lists_bind hl tree scope) hf' tree' (hnames _)
  obtain ⟨hfirst, hfirst'⟩ := stands_bindBoth hl hr hu hf hf' hne hc hd'
  obtain ⟨hsecond', hsecond⟩ := stands_bindBoth hl hr hu hf' hf hne.symm hd hc'
  refine ⟨⟨bs, bs', hfirst, hsecond, hbs⟩, fun uri n => ?_⟩
  by_cases huri : uri = scope.uri
  · rw [huri, hfirst.exportedName?_congr hsecond (hbs.imp fun _ _ h => h.bare)]
  by_cases huri' : uri = scope'.uri
  · rw [huri', hfirst'.exportedName?_congr hsecond' (hcs.flip.imp fun _ _ h => h.bare.symm)]
  · have hnone : (p.bindBoth tree tree' scope scope').units.get? uri = none := by
      simp [Table.get?_eq_none_iff, keys_bindBoth hu hne, huri, huri']
    have hnone' : (p.bindBoth tree' tree scope' scope).units.get? uri = none := by
      simp [Table.get?_eq_none_iff, keys_bindBoth hu hne.symm, huri, huri']
    rw [exportedName?_of_none hnone, exportedName?_of_none hnone']

/-- **In either order** the one has the same symbols, and it is affected by the other or not. -/
theorem informed_bindBoth (hs : p.IsSettled) (ht : p.Tracks) :
    List.Forall₂ (fun id id' => ∃ x y, (p.bindBoth tree tree' scope scope').symbol? id = some x ∧
        (p.bindBoth tree' tree scope' scope).symbol? id' = some y ∧
          Symbol.Informed (p.unitScope tree scope) tree (p.bind tree' scope').1.publicName? x y)
        ((p.bindBoth tree tree' scope scope').idsIn scope.uri)
        ((p.bindBoth tree' tree scope' scope).idsIn scope.uri) ∧
      ((∀ id ∈ (p.bindBoth tree tree' scope scope').idsIn scope.uri, ∀ x,
          (p.bindBoth tree tree' scope scope').symbol? id = some x → (p.unitScope tree scope).Apart
            tree (p.bind tree' scope').1.publicName? x.span) →
        (p.bindBoth tree tree' scope scope').affected scope'.uri =
          (p.bindBoth tree' tree scope' scope).affected scope'.uri) := by
  obtain ⟨⟨bs, bs', hfirst, hsecond, hbs⟩, hexp⟩ := alike_bindBoth hl hr hu hf hf' hne hp
  have hl₁ : (p.bind tree scope).1.store.Lists _ := lists_bind hl tree scope
  have hs₁ : (p.bindBoth tree tree' scope scope').IsSettled :=
    (hs.bind hl tree scope).bind hl₁ tree' scope'
  have hs₂ : (p.bindBoth tree' tree scope' scope).IsSettled :=
    (hs.bind hl tree' scope').bind (lists_bind hl tree' scope') tree scope
  constructor
  · apply hfirst.informed hsecond hs₁ hs₂ hexp hbs
    · exact (hr.bind hl hf fun _ _ => trivial).bind hl₁ hf' fun _ _ => trivial
    · rw [bindBoth]
      exact lists_bind hl₁ tree' scope'
  · intro ha
    have hbeside : List.Forall₂ (Bound.Beside (p.unitScope tree scope).isFree) bs bs' := by
      have happart : ∀ b ∈ bs, (p.unitScope tree scope).Apart tree
          (p.bind tree' scope').1.publicName? b.symbol.span := by
        intro b hb
        obtain ⟨id, hid, hserves⟩ := exists_partner' hfirst.symbols hb
        obtain ⟨x, hx, hxb⟩ := Option.map_eq_some_iff.mp hserves.map_bare
        rw [← show x.span = b.symbol.span from (congrArg Symbol.span hxb :)]
        exact ha id hid x hx
      apply ((List.forall₂_and_left _ _).mpr ⟨happart, hbs⟩).imp
      exact fun b b' ⟨hb, hi⟩ => hi.beside hb
    apply ImportGraph.affected_ext
    intro k
    have ht₁ : (p.bindBoth tree tree' scope scope').Tracks := (ht.bind tree scope).bind tree' scope'
    have ht₂ : (p.bindBoth tree' tree scope' scope).Tracks := (ht.bind tree' scope').bind tree scope
    refine (ht₁.mem_affected_iff hne (by simp [keys_bindBoth hu hne])).trans
      (Iff.trans ?_ (ht₂.mem_affected_iff hne (by simp [keys_bindBoth hu hne.symm])).symm)
    rw [hfirst.imports_congr hsecond hs₁ hs₂ hexp hbeside]

end Both

/-- **The order in which two units are bound** does not matter to the symbols of the one, nor to
whether it is affected by the other, if it reads the names of the other as what they are. The bases
of its classes do not depend on it in any case. -/
theorem agrees_bindBoth (options : Options) (tree tree' : Tree) {scope scope' : Scope}
    (hf : scope.IsFresh) (hf' : scope'.IsFresh) (hne : scope.uri ≠ scope'.uri) :
    let first := (empty options).bindBoth tree tree' scope scope'
    let second := (empty options).bindBoth tree' tree scope' scope
    let s := (empty options).unitScope tree scope
    let known := ((empty options).bind tree' scope').1.publicName?
    List.Forall₂ (fun id id' => ∃ x y, first.symbol? id = some x ∧ second.symbol? id' = some y ∧
        Symbol.Informed s tree known x y) (first.idsIn scope.uri) (second.idsIn scope.uri) ∧
      ((∀ id ∈ first.idsIn scope.uri, ∀ x, first.symbol? id = some x → s.Apart tree known x.span) →
        first.affected scope'.uri = second.affected scope'.uri) := by
  have hr : (empty options).Recalls fun _ => True :=
    (History.recalls_run options (List.forall_mem_nil _)).forget
  exact informed_bindBoth (History.lists_run options []) hr rfl hf hf' hne (fun _ => rfl)
    (History.settled_run options []) (History.tracks_run options [])

open History in
/-- The function gets the type that it waits for, whether the class is there or comes later. -/
theorem agrees_bindBoth_aliasTree :
    let scope := aliasScope.addWaiting "N" "v.avt"
    let first := (empty {}).bindBoth aliasTree suppliedTree scope suppliedScope
    let second := (empty {}).bindBoth suppliedTree aliasTree suppliedScope scope
    scope.IsFresh ∧ suppliedScope.IsFresh ∧ scope.uri ≠ suppliedScope.uri ∧
      List.Forall₂ (fun id id' => ∃ x y, first.symbol? id = some x ∧ second.symbol? id' = some y ∧
        x.Agrees y) (first.idsIn scope.uri) (second.idsIn scope.uri) ∧
      first.affected suppliedScope.uri = second.affected suppliedScope.uri := by
  intro scope first second
  have halias : aliasScope.IsFresh := fun n => rfl
  have hf : scope.IsFresh := halias.addWaiting "N" "v.avt"
  have hf' : suppliedScope.IsFresh := fun n => rfl
  have hne : scope.uri ≠ suppliedScope.uri := by decide
  have hforms : ∀ i f, aliasTree.form? (some i) = some f →
      f ∈ aliasTree.nodes.toList.map Node.form := by
    intro i f hi
    obtain ⟨n, hn, rfl⟩ := Option.map_eq_some_iff.mp hi
    exact List.mem_map_of_mem (Array.mem_toList_iff.mpr (Array.mem_of_getElem? hn))
  have hlist : aliasTree.nodes.toList.map Node.form = [.identifier "f", .identifier "a",
      .identifier "M", .typeReference (some 2) [],
      .field .parameter {} { name := some 1, annotation := some 3 }, .identifier "b",
      .identifier "N", .typeReference (some 6) [],
      .field .parameter {} { name := some 5, annotation := some 7 }, .block [],
      .function .declaration
        { name := some 0, parameters := [some 4, some 8], body := some 9 },
      .sourceFile [some 10]] := by
    decide +kernel
  have ha : ∀ span, ((empty {}).unitScope aliasTree scope).Apart aliasTree
      ((empty {}).bind suppliedTree suppliedScope).1.publicName? span := by
    apply Scope.apart_of_plain
    · intro i text hi
      have hm := hforms i _ hi
      simp only [hlist, List.mem_cons, Form.identifier.injEq, reduceCtorEq, List.not_mem_nil,
        or_false, false_or] at hm
      rcases hm with rfl | rfl | rfl | rfl | rfl <;> decide
    · intro i object member hi
      have hm := hforms i _ hi
      simp [hlist] at hm
  obtain ⟨hsymbols, haffected⟩ := agrees_bindBoth {} aliasTree suppliedTree hf hf' hne
  refine ⟨hf, hf', hne, ?symbols, haffected fun _ _ x _ => ha x.span⟩
  case symbols =>
    apply hsymbols.imp
    intro id id' ⟨x, y, hx, hy, h⟩
    exact ⟨x, y, hx, hy, h.agrees (ha x.span)⟩

/-- A function that accesses a member of the import `N`. -/
def accessTree : Tree :=
  Tree.link
    { file := "u.avt"
      source := "function f() \x7b N.m \x7d"
      nodes := #[⟨.identifier "f", ⟨9, 10⟩, none⟩, ⟨.identifier "N", ⟨15, 16⟩, none⟩,
        ⟨.identifier "m", ⟨17, 18⟩, none⟩, ⟨.access (some 1) (some 2), ⟨15, 18⟩, none⟩,
        ⟨.wrapper .expressionStatement (some 3), ⟨15, 18⟩, none⟩,
        ⟨.block [some 4], ⟨13, 20⟩, none⟩,
        ⟨.function .declaration { name := some 0, body := some 5 }, ⟨0, 20⟩, none⟩,
        ⟨.sourceFile [some 6], ⟨0, 20⟩, none⟩] } 7

/-- Two classes, the second of which is called `N.m` in the namespace `N`. -/
def membersTree : Tree :=
  Tree.link
    { file := "v.avt"
      source := "class N {}\nclass m {}"
      nodes := #[⟨.identifier "N", ⟨6, 7⟩, none⟩,
        ⟨.classLike .classDeclaration { name := some 0 }, ⟨0, 10⟩, none⟩,
        ⟨.identifier "m", ⟨17, 18⟩, none⟩,
        ⟨.classLike .classDeclaration { name := some 2 }, ⟨11, 21⟩, none⟩,
        ⟨.sourceFile [some 1, some 3], ⟨0, 21⟩, none⟩] } 4

/-- Where the object of an access is imported and the whole is a qualified name, it matters which of
them is known: `N` is replaced if it is found late, and the whole is left alone otherwise. -/
theorem not_compiled_accessTree :
    let scope := Scope.addWaiting { uri := "u.avt", path := [] } "N" "v.avt"
    let scope' : Scope := { uri := "v.avt", path := ["N"] }
    let first := (empty {}).bindBoth accessTree membersTree scope scope'
    let second := (empty {}).bindBoth membersTree accessTree scope' scope
    scope.IsFresh ∧ scope'.IsFresh ∧ scope.uri ≠ scope'.uri ∧ scope'.requests = [] ∧
      (first.idsIn scope.uri, second.idsIn scope.uri) = ([⟨0, 0⟩], [⟨2, 0⟩]) ∧
      (first.affected scope'.uri, second.affected scope'.uri) = (["u.avt"], []) ∧
      ((first.symbol? ⟨0, 0⟩).map Symbol.compiled, (second.symbol? ⟨2, 0⟩).map Symbol.compiled) =
        (some "function f() \x7b N.N.m \x7d", some "function f() \x7b N.m \x7d") ∧
      ((first.symbol? ⟨0, 0⟩).map Symbol.edges, (second.symbol? ⟨2, 0⟩).map Symbol.edges) =
        (some [⟨"N.N", .otherUnit "v.avt", false⟩], some [⟨"N.m", .ambient, false⟩]) := by
  intro scope scope' first second
  have hempty : empty {} = { options := {}, builtins :=
      ⟨Builtins.standardNames, Builtins.nodup_standardNames⟩ } := by
    rw [empty, Options.allBuiltins_eq rfl]
  have hs : Scope.IsFresh { uri := "u.avt", path := [] } := fun n => rfl
  refine ⟨hs.addWaiting "N" "v.avt", fun n => rfl, by decide, rfl, ?_⟩
  simp only [first, second, hempty]
  decide +kernel

end Project

end Bindery
