import Bindery.Options
import Bindery.Proofs.Roster

/-!
# The default names

* `Builtins.standard_eq`: no built-in name is listed twice.
* `Options.allBuiltins_eq`: the names that are built in where no others are added.
-/

namespace Bindery

theorem Builtins.nodup_standardNames : standardNames.Nodup := by decide +kernel

theorem Builtins.standard_eq : standard = ⟨standardNames, nodup_standardNames⟩ :=
  Roster.ext_toList (Roster.toList_ofList nodup_standardNames)

theorem Options.allBuiltins_eq {o : Options} (h : o.builtins = []) :
    o.allBuiltins = ⟨Builtins.standardNames, Builtins.nodup_standardNames⟩ := by
  rw [allBuiltins, h, Builtins.withNames, Roster.insertAll, List.foldl_nil, Builtins.standard_eq]

end Bindery
