import PhpLowering.Text.Ascii

/-!
# Names, their case and the backslash that may lead them

Names are compared in lower case and without a leading backslash.  The two do not depend on each other: no other
character than the backslash becomes one in lower case.
-/

namespace PhpLowering
namespace Text

theorem globalName_eq_self_iff (name : String) : globalName name = name ↔ name.toList.head? ≠ some '\\' := by
  unfold globalName
  split
  · rename_i rest hname
    refine iff_of_false (fun h => ?_) fun h => h (hname ▸ rfl)
    have hlength := congrArg List.length (hname.symm.trans (congrArg String.toList h).symm)
    simp at hlength
  · rename_i hname
    refine iff_of_true rfl fun h => ?_
    cases hlist : name.toList with
    | nil => rw [hlist] at h; exact nomatch h
    | cons c rest =>
      rw [hlist] at h
      obtain rfl := Option.some.inj h
      exact hname rest hlist

theorem toLower_eq_backslash {c : Char} (h : c.toLower = '\\') : c = '\\' := by
  unfold Char.toLower at h
  split at h
  · -- A capital letter becomes a letter.
    rename_i hupper
    obtain ⟨hlow, hhigh⟩ := hupper
    have hval : (c.val + ('a'.val - 'A'.val)).toNat = 92 := congrArg Char.toNat h
    rw [ge_iff_le, UInt32.le_iff_toNat_le] at hlow
    rw [UInt32.le_iff_toNat_le] at hhigh
    rw [UInt32.toNat_add] at hval
    have hletters : 'A'.val.toNat = 65 ∧ 'Z'.val.toNat = 90 ∧ ('a'.val - 'A'.val).toNat = 32 := by decide
    omega
  · exact h

/-- The case of a name has nothing to do with the backslash that may lead it. -/
theorem globalName_eq_self_of_foldCase {a b : String} (h : foldCase a = foldCase b) (ha : globalName a = a) :
    globalName b = b := by
  rw [globalName_eq_self_iff] at ha ⊢
  intro hb
  have hlists := congrArg String.toList h
  simp only [foldCase, String.toList_map] at hlists
  have hheads := congrArg List.head? hlists
  rw [List.head?_map, List.head?_map, hb] at hheads
  obtain ⟨c, hc, hlower⟩ := Option.map_eq_some_iff.mp hheads
  exact ha (toLower_eq_backslash hlower ▸ hc)

/-- A leading backslash is dropped. -/
theorem globalName_of_backslash {name : String} {rest : List Char} (h : name.toList = '\\' :: rest) :
    globalName name = String.ofList rest := by
  simp only [globalName, h]

/-- Whether the case or the backslash is dropped first makes no difference. -/
theorem foldCase_globalName (name : String) : foldCase (globalName name) = globalName (foldCase name) := by
  have hfolded : (foldCase name).toList = name.toList.map Char.toLower := String.toList_map
  by_cases hhead : name.toList.head? = some '\\'
  · obtain ⟨rest, hname⟩ := List.head?_eq_some_iff.mp hhead
    rw [hname] at hfolded
    rw [globalName_of_backslash hname, globalName_of_backslash hfolded, foldCase]
    apply String.toList_injective
    rw [String.toList_map, String.toList_ofList, String.toList_ofList]
  · have hfoldedHead : (foldCase name).toList.head? ≠ some '\\' := by
      rw [hfolded, List.head?_map]
      intro h
      obtain ⟨c, hc, hlower⟩ := Option.map_eq_some_iff.mp h
      exact hhead (toLower_eq_backslash hlower ▸ hc)
    rw [(globalName_eq_self_iff _).mpr hhead, (globalName_eq_self_iff _).mpr hfoldedHead]

end Text
end PhpLowering
