import Mathlib.Data.Option.Basic
import Mathlib.Logic.Relation
import Bindery.Config.Load

/-!
# Inherited settings

Loading a settings file follows the way from file to file that `extends` makes. The way ends, at a
file that extends nothing, at a file that cannot be read, or where it comes back; and what has been
loaded at the end gives each setting as the first file on the way does.

* `Config.given_above`: of two files the upper one comes first.
* `FileSystem.config?`, `FileSystem.next?`: what a file says, and the file it extends.
* `FileSystem.Extends`, `FileSystem.Opens`, `FileSystem.Chain`: the way from file to file.
* `FileSystem.loadFrom_of_next?`: one step of loading.
* **`FileSystem.exists_chain`**: loading along a way that does not come back.
* **`FileSystem.inherits_load`**: what loading a file gives.
-/

namespace Bindery

open Relation

/-! ## One file on top of another -/

/-- What a file gives for a setting. -/
def Config.given {α : Type} (setting : Settings → Option α) (c : Config) : Option α :=
  c.settings.bind setting

theorem Config.given_above {α : Type} {setting : Settings → Option α}
    (h : ∀ s base, setting (s.above base) = (setting s).or (setting base)) (c base : Config) :
    (c.above base).given setting = (c.given setting).or (base.given setting) := by
  cases hc : c.settings <;> cases hb : base.settings <;> simp [given, above, hc, hb, h]

namespace FileSystem

variable (fs : FileSystem)

/-! ## The way from file to file -/

/-- What the file at a path says, if it can be read and understood. -/
def config? (p : Path) : Option Config := (fs.read? p).bind fun text => (Config.parse text).toOption

/-- The file that the file at `p` extends, named there as seen from the folder of `p`. -/
def next? (p : Path) : Option Path := do
  let c ← fs.config? p
  let base ← c.base
  let folder ← p.parent?
  return folder.join (Path.withExtension ⟨base⟩ "json")

/-- What the file at a path gives for a setting. -/
def given? {α : Type} (setting : Settings → Option α) (p : Path) : Option α :=
  (fs.config? p).bind (Config.given setting)

/-- **The file at `p` extends the file at `q`.** -/
def Extends (p q : Path) : Prop := fs.next? p = some q

/-- **The file at a path can be used**: it can be read and understood, and if it extends a file, it
lies in a folder, from which that file is named. -/
def Opens (p : Path) : Prop :=
  ∃ c, fs.config? p = some c ∧ (c.base ≠ none → p.parent? ≠ none)

/-- **The whole way from a file on**: every file extends the one after it, and the last one none. -/
inductive Chain : Path → List Path → Prop where
  | last {p : Path} (h : fs.next? p = none) : Chain p [p]
  | link {p q : Path} {ps : List Path} (h : fs.Extends p q) (hq : Chain q ps) : Chain p (p :: ps)

/-- The way from a file on never comes back to a file that it has come by. -/
def NeverReturns (start : Path) : Prop :=
  ∀ p q, ReflTransGen fs.Extends start p → TransGen fs.Extends p q → fs.identity q ≠ fs.identity p

variable {fs} {p q : Path} {ps met : List _} {c : Config}

theorem next?_eq_some_iff : fs.next? p = some q ↔ ∃ c base folder, fs.config? p = some c ∧
    c.base = some base ∧ p.parent? = some folder ∧
      q = folder.join (Path.withExtension ⟨base⟩ "json") := by
  simp only [next?, Option.bind_eq_bind, Option.bind_eq_some_iff, Option.pure_def,
    Option.some.injEq, eq_comm (a := q)]
  exact ⟨fun ⟨c, hc, base, hb, folder, hf, hq⟩ => ⟨c, base, folder, hc, hb, hf, hq⟩,
    fun ⟨c, base, folder, hc, hb, hf, hq⟩ => ⟨c, hc, base, hb, folder, hf, hq⟩⟩

theorem config?_eq_some_iff : fs.config? p = some c ↔
    ∃ text, fs.read? p = some text ∧ Config.parse text = .ok c := by
  rw [config?, Option.bind_eq_some_iff]
  refine exists_congr fun text => and_congr_right fun _ => ?_
  cases Config.parse text <;> simp [Except.toOption]

theorem Chain.mem {start : Path} (h : fs.Chain start ps) (hp : ReflTransGen fs.Extends start p) :
    p ∈ ps := by
  induction h with
  | last hend =>
    rcases hp.cases_head with rfl | ⟨r, hr, -⟩
    · exact List.mem_singleton_self _
    · cases hend.symm.trans hr
  | link hnext _ ih =>
    rcases hp.cases_head with rfl | ⟨r, hr, hreach⟩
    · exact List.mem_cons_self
    · obtain rfl := Option.some.inj (hnext.symm.trans hr)
      exact List.mem_cons_of_mem _ (ih hreach)

theorem Chain.unique {start : Path} {ps' : List Path} (h : fs.Chain start ps)
    (h' : fs.Chain start ps') : ps = ps' := by
  induction h generalizing ps' with
  | last hend =>
    cases h' with
    | last _ => rfl
    | link hnext _ => cases hend.symm.trans hnext
  | link hnext _ ih =>
    cases h' with
    | last hend => cases hend.symm.trans hnext
    | link hnext' hchain =>
      obtain rfl := Option.some.inj (hnext.symm.trans hnext')
      rw [ih hchain]

theorem Chain.neverReturns {start : Path} (h : fs.Chain start ps)
    (hnodup : (ps.map fs.identity).Nodup) : fs.NeverReturns start := by
  induction h with
  | last hend =>
    intro p q hp hq
    rcases hp.cases_head with rfl | ⟨r, hr, -⟩
    · obtain ⟨r, hr, -⟩ := TransGen.head'_iff.mp hq
      cases hend.symm.trans hr
    · cases hend.symm.trans hr
  | link hnext hchain ih =>
    rw [List.map_cons, List.nodup_cons] at hnodup
    intro p q hp hq
    rcases hp.cases_head with rfl | ⟨r, hr, hreach⟩
    · obtain ⟨r, hr, hreach⟩ := TransGen.head'_iff.mp hq
      obtain rfl := Option.some.inj (hnext.symm.trans hr)
      exact fun heq => hnodup.1 (heq ▸ List.mem_map_of_mem (hchain.mem hreach))
    · obtain rfl := Option.some.inj (hnext.symm.trans hr)
      exact ih hnodup.2 p q hreach hq

/-! ## Steps of loading -/

theorem loadFrom_of_mem (h : fs.identity p ∈ met) :
    fs.loadFrom met p = .error (.cycle (fs.display p)) := by
  rw [loadFrom, dif_pos h]

theorem loadFrom_of_not_opens (h : ¬fs.Opens p) : ∃ e, fs.loadFrom met p = .error e := by
  by_cases hm : fs.identity p ∈ met
  · exact ⟨_, loadFrom_of_mem hm⟩
  rw [loadFrom, dif_neg hm]
  split
  · exact ⟨_, rfl⟩
  · next text hread =>
    split
    · exact ⟨_, rfl⟩
    · next config hparse =>
      have hc : fs.config? p = some config := config?_eq_some_iff.mpr ⟨text, hread, hparse⟩
      cases hb : config.base with
      | none => exact absurd ⟨config, hc, fun hne => absurd hb hne⟩ h
      | some base =>
        cases hf : p.parent? with
        | some folder => exact absurd ⟨config, hc, fun _ => hf ▸ Option.some_ne_none folder⟩ h
        | none => exact ⟨.unreadable .noFolder, by simp only [Path.extended?, hf, Option.map_none]⟩

theorem loadFrom_of_base_eq_none (hm : fs.identity p ∉ met) (hc : fs.config? p = some c)
    (hb : c.base = none) : fs.loadFrom met p = .ok c := by
  obtain ⟨text, hread, hparse⟩ := config?_eq_some_iff.mp hc
  rw [loadFrom, dif_neg hm]
  split
  · next hnone => cases hread.symm.trans hnone
  · next text' hread' =>
    obtain rfl := Option.some.inj (hread.symm.trans hread')
    simp only [hparse, hb]

/-- **One step of loading**: a file that extends another is put on top of it. -/
theorem loadFrom_of_next? (hm : fs.identity p ∉ met) (hq : fs.next? p = some q) :
    ∃ c, fs.config? p = some c ∧
      fs.loadFrom met p = (fs.loadFrom (fs.identity p :: met) q).map c.above := by
  obtain ⟨c, base, folder, hc, hb, hfolder, rfl⟩ := next?_eq_some_iff.mp hq
  refine ⟨c, hc, ?_⟩
  obtain ⟨text, hread, hparse⟩ := config?_eq_some_iff.mp hc
  rw [loadFrom, dif_neg hm]
  split
  · next hnone => cases hread.symm.trans hnone
  · next text' hread' =>
    obtain rfl := Option.some.inj (hread.symm.trans hread')
    simp only [hparse, hb, Path.extended?, hfolder, Option.map_some]

/-! ## Loading along the way -/

theorem unmet_of_config? (hm : fs.identity p ∉ met) (hc : fs.config? p = some c) :
    fs.unmet (fs.identity p :: met) < fs.unmet met := by
  obtain ⟨text, hread, -⟩ := config?_eq_some_iff.mp hc
  exact unmet_lt (identity_mem_keys hread) hm

/-- **Loading along a way that does not come back** ends, as there are finitely many files: each on
the way is one that has not been met. The result gives what the first file on the way gives. -/
theorem exists_chain (hopens : ∀ q, ReflTransGen fs.Extends p q → fs.Opens q)
    (hreturn : fs.NeverReturns p) (hmet : ∀ q, ReflTransGen fs.Extends p q → fs.identity q ∉ met) :
    ∃ ps c, fs.Chain p ps ∧ fs.loadFrom met p = .ok c ∧
      ∀ {α : Type} (setting : Settings → Option α),
        (∀ s base, setting (s.above base) = (setting s).or (setting base)) →
          c.given setting = ps.findSome? (fs.given? setting) := by
  induction hn : fs.unmet met using Nat.strongRecOn generalizing p met with
  | _ n ih =>
    subst hn
    obtain ⟨c, hc, hfolder⟩ := hopens p .refl
    have hm := hmet p .refl
    cases hq : fs.next? p with
    | none =>
      have hb : c.base = none := by
        by_contra hne
        obtain ⟨base, hb⟩ := Option.ne_none_iff_exists'.mp hne
        obtain ⟨folder, hf⟩ := Option.ne_none_iff_exists'.mp (hfolder hne)
        cases hq.symm.trans (next?_eq_some_iff.mpr ⟨c, base, folder, hc, hb, hf, rfl⟩)
      refine ⟨[p], c, .last hq, loadFrom_of_base_eq_none hm hc hb, fun setting _ => ?_⟩
      rw [List.findSome?_singleton, given?, hc, Option.bind_some]
    | some q =>
      have hreach : ∀ r, ReflTransGen fs.Extends q r → ReflTransGen fs.Extends p r :=
        fun r h => .head hq h
      obtain ⟨ps, base, hchain, hload, hgiven⟩ := ih _ (unmet_of_config? hm hc)
        (fun r h => hopens r (hreach r h)) (fun r s hr hs => hreturn r s (hreach r hr) hs)
        (fun r h => List.not_mem_cons_of_ne_of_not_mem (hreturn p r .refl (TransGen.head' hq h))
          (hmet r (hreach r h))) rfl
      obtain ⟨c', hc', hstep⟩ := loadFrom_of_next? hm hq
      obtain rfl := Option.some.inj (hc.symm.trans hc')
      refine ⟨p :: ps, c.above base, .link hq hchain, by rw [hstep, hload]; rfl,
        fun setting hsetting => ?_⟩
      rw [Config.given_above hsetting, List.findSome?_cons, given?, hc, Option.bind_some,
        hgiven setting hsetting]
      cases c.given setting <;> rfl

theorem loadFrom_of_reaches_met (h : ReflTransGen fs.Extends p q) (hq : fs.identity q ∈ met) :
    ∃ name, fs.loadFrom met p = .error (.cycle name) := by
  induction h using ReflTransGen.head_induction_on generalizing met with
  | refl => exact ⟨_, loadFrom_of_mem hq⟩
  | @head p r hr _ ih =>
    by_cases hm : fs.identity p ∈ met
    · exact ⟨_, loadFrom_of_mem hm⟩
    obtain ⟨c, -, hstep⟩ := loadFrom_of_next? hm hr
    obtain ⟨name, hname⟩ := ih (List.mem_cons_of_mem (fs.identity p) hq)
    exact ⟨name, by rw [hstep, hname]; rfl⟩

/-- What stops loading at a file stops it from every file that leads there. -/
theorem loadFrom_error_of_reaches {P : LoadError → Prop} (hcycle : ∀ name, P (.cycle name))
    (h : ReflTransGen fs.Extends p q) (hq : ∀ met, ∃ e, P e ∧ fs.loadFrom met q = .error e) :
    ∃ e, P e ∧ fs.loadFrom met p = .error e := by
  induction h using ReflTransGen.head_induction_on generalizing met with
  | refl => exact hq met
  | @head p r hr _ ih =>
    by_cases hm : fs.identity p ∈ met
    · exact ⟨_, hcycle _, loadFrom_of_mem hm⟩
    obtain ⟨c, -, hstep⟩ := loadFrom_of_next? hm hr
    obtain ⟨e, he, hload⟩ : ∃ e, P e ∧ fs.loadFrom (fs.identity p :: met) r = .error e := ih
    exact ⟨e, he, by rw [hstep, hload]; rfl⟩

theorem loadFrom_of_returns (h : TransGen fs.Extends p q) (hq : fs.identity q = fs.identity p) :
    ∃ name, fs.loadFrom met p = .error (.cycle name) := by
  by_cases hm : fs.identity p ∈ met
  · exact ⟨_, loadFrom_of_mem hm⟩
  obtain ⟨r, hr, hreach⟩ := TransGen.head'_iff.mp h
  obtain ⟨c, -, hstep⟩ := loadFrom_of_next? hm hr
  have hmem : fs.identity q ∈ fs.identity p :: met := hq ▸ List.mem_cons_self
  obtain ⟨name, hname⟩ := loadFrom_of_reaches_met hreach hmem
  exact ⟨name, by rw [hstep, hname]; rfl⟩

/-- **What loading a file gives.** It succeeds along a way whose files can all be used and that
never comes back: the way has an end, the result extends nothing, and each setting is as the first
file on the way gives it. A way that comes back is reported as a cycle, and a file that cannot be
used anywhere on the way is an error. -/
theorem inherits_load (fs : FileSystem) (start : Path) :
    ((∀ p, ReflTransGen fs.Extends start p → fs.Opens p) → fs.NeverReturns start →
      ∃ ps c, fs.Chain start ps ∧ fs.load start = .ok c ∧ c.base = none ∧
        c.given Settings.debug = ps.findSome? (fs.given? Settings.debug) ∧
        c.given Settings.packageAccessor = ps.findSome? (fs.given? Settings.packageAccessor) ∧
        c.given Settings.builtins = ps.findSome? (fs.given? Settings.builtins) ∧
        c.given Settings.ignored = ps.findSome? (fs.given? Settings.ignored)) ∧
    (∀ p q, ReflTransGen fs.Extends start p → TransGen fs.Extends p q →
      fs.identity q = fs.identity p → ∃ name, fs.load start = .error (.cycle name)) ∧
    ∀ p, ReflTransGen fs.Extends start p → ¬fs.Opens p → ∃ e, fs.load start = .error e := by
  refine ⟨fun hopens hreturn => ?_, fun p q hp hq hid => ?_, fun p hp hno => ?_⟩
  · obtain ⟨ps, c, hchain, hload, hgiven⟩ :=
      exists_chain hopens hreturn fun _ _ => List.not_mem_nil
    exact ⟨ps, c, hchain, hload, base_of_loadFrom hload, hgiven _ fun _ _ => rfl,
      hgiven _ fun _ _ => rfl, hgiven _ fun _ _ => rfl, hgiven _ fun _ _ => rfl⟩
  · have hcycle (met : List String) :
        ∃ e, (∃ name, e = .cycle name) ∧ fs.loadFrom met p = .error e := by
      obtain ⟨name, h⟩ : ∃ name, fs.loadFrom met p = .error (.cycle name) :=
        loadFrom_of_returns hq hid
      exact ⟨_, ⟨name, rfl⟩, h⟩
    obtain ⟨e, ⟨name, rfl⟩, hload⟩ := loadFrom_error_of_reaches (fun name => ⟨name, rfl⟩) hp hcycle
    exact ⟨name, hload⟩
  · have herror (met : List String) : ∃ e, True ∧ fs.loadFrom met p = .error e := by
      obtain ⟨e, h⟩ : ∃ e, fs.loadFrom met p = .error e := loadFrom_of_not_opens hno
      exact ⟨e, trivial, h⟩
    obtain ⟨e, -, hload⟩ := loadFrom_error_of_reaches (fun _ => trivial) hp herror
    exact ⟨e, hload⟩

/-- A file on top of two others, of which the middle one has no settings; two files that extend each
other; and a file that extends one that is not there. -/
def layered : FileSystem where
  files :=
    { entries :=
        [("/s/avt.json", "\x7b\"extends\": \"./mid\", \"compilerOptions\": " ++
            "\x7b\"debug\": null, \"builtins\": [\"A\"]\x7d\x7d"),
          ("/s/mid.json", "\x7b\"compilerOptions\": null, \"extends\": \"base.json\"\x7d"),
          ("/s/base.json", "\x7b\"compilerOptions\": \x7b\"debug\": \"yes\", " ++
            "\"builtins\": [\"B\"]\x7d\x7d"),
          ("/s/a.json", "\x7b\"extends\": \"b\"\x7d"),
          ("/s/b.json", "\x7b\"extends\": \"./a\"\x7d"),
          ("/s/c.json", "\x7b\"extends\": \"gone\"\x7d")]
      nodup := by decide }
  canonical? p := some p.plain
  longest := 4095

theorem config?_avt : layered.config? ⟨"/s/avt.json"⟩ =
    some { base := some "./mid", settings := some { builtins := some ["A"] } } := by decide +kernel

theorem config?_mid : layered.config? ⟨"/s/./mid.json"⟩ = some { base := some "base.json" } := by
  decide +kernel

theorem config?_base : layered.config? ⟨"/s/base.json"⟩ =
    some { settings := some { debug := some true, builtins := some ["B"] } } := by decide +kernel

theorem chain_layered : layered.Chain ⟨"/s/avt.json"⟩
    [⟨"/s/avt.json"⟩, ⟨"/s/./mid.json"⟩, ⟨"/s/base.json"⟩] := by
  refine .link (next?_eq_some_iff.mpr ⟨_, _, ⟨"/s"⟩, config?_avt, rfl, ?_, ?_⟩)
    (.link (next?_eq_some_iff.mpr ⟨_, _, ⟨"/s"⟩, config?_mid, rfl, ?_, ?_⟩) (.last ?_))
  · decide +kernel
  · decide +kernel
  · decide +kernel
  · decide +kernel
  · rw [next?, config?_base]
    rfl

/-- Settings that a file does not give, or gives as `null`, come from the file below. -/
theorem inherits_load_layered :
    (∀ p, ReflTransGen layered.Extends ⟨"/s/avt.json"⟩ p → layered.Opens p) ∧
    layered.NeverReturns ⟨"/s/avt.json"⟩ ∧
    (∃ c, layered.load ⟨"/s/avt.json"⟩ = .ok c ∧ c.base = none ∧
      c.given Settings.debug = some true ∧ c.given Settings.packageAccessor = none ∧
      c.given Settings.builtins = some ["A"] ∧ c.given Settings.ignored = none) ∧
    (∃ name, layered.load ⟨"/s/a.json"⟩ = .error (.cycle name)) ∧
    ∃ e, layered.load ⟨"/s/c.json"⟩ = .error e := by
  have hopens : ∀ p, ReflTransGen layered.Extends ⟨"/s/avt.json"⟩ p → layered.Opens p := by
    intro p hp
    have hmem := chain_layered.mem hp
    simp only [List.mem_cons, List.not_mem_nil, or_false] at hmem
    rcases hmem with rfl | rfl | rfl
    · exact ⟨_, config?_avt, fun _ => by decide +kernel⟩
    · exact ⟨_, config?_mid, fun _ => by decide +kernel⟩
    · exact ⟨_, config?_base, fun _ => by decide +kernel⟩
  have hreturn : layered.NeverReturns ⟨"/s/avt.json"⟩ :=
    chain_layered.neverReturns (by decide +kernel)
  refine ⟨hopens, hreturn, ?_, ?_, ?_⟩
  · obtain ⟨ps, c, hchain, hload, hbase, hdebug, haccessor, hbuiltins, hignored⟩ :=
      (inherits_load layered ⟨"/s/avt.json"⟩).1 hopens hreturn
    obtain rfl := hchain.unique chain_layered
    refine ⟨c, hload, hbase, hdebug.trans ?_, haccessor.trans ?_, hbuiltins.trans ?_,
      hignored.trans ?_⟩ <;>
      simp only [List.findSome?_cons, List.findSome?_nil, given?, config?_avt, config?_mid,
        config?_base, Option.bind_some, Config.given, Option.bind_none]
  · have ha : layered.config? ⟨"/s/a.json"⟩ = some { base := some "b" } := by decide +kernel
    have hb : layered.config? ⟨"/s/b.json"⟩ = some { base := some "./a" } := by decide +kernel
    have hab : layered.Extends ⟨"/s/a.json"⟩ ⟨"/s/b.json"⟩ := next?_eq_some_iff.mpr
      ⟨_, _, ⟨"/s"⟩, ha, rfl, by decide +kernel, by decide +kernel⟩
    have hba : layered.Extends ⟨"/s/b.json"⟩ ⟨"/s/./a.json"⟩ := next?_eq_some_iff.mpr
      ⟨_, _, ⟨"/s"⟩, hb, rfl, by decide +kernel, by decide +kernel⟩
    exact (inherits_load layered ⟨"/s/a.json"⟩).2.1 _ _ .refl (.head hab (.single hba))
      (by decide +kernel)
  · have hc : layered.config? ⟨"/s/c.json"⟩ = some { base := some "gone" } := by decide +kernel
    have hnext : layered.Extends ⟨"/s/c.json"⟩ ⟨"/s/gone.json"⟩ := next?_eq_some_iff.mpr
      ⟨_, _, ⟨"/s"⟩, hc, rfl, by decide +kernel, by decide +kernel⟩
    have hgone : layered.config? ⟨"/s/gone.json"⟩ = none := by decide +kernel
    refine (inherits_load layered ⟨"/s/c.json"⟩).2.2 _ (.single hnext) ?_
    rintro ⟨c, hopen, -⟩
    cases hgone.symm.trans hopen

end FileSystem

end Bindery
