import Mathlib.Data.List.Basic
import PhpLowering.Proofs.Text.Names
import PhpLowering.Proofs.Tree.Declared

/-!
# What is known of the functions of a unit ahead of the analysis

The functions are collected in one walk, which keeps the functions found so far, the names that are declared
unconditionally and the redeclarations.  `collect_spec` says what comes out of it, for the declarations in the order
of the text:

* every name that is not known from outside is found with the signature of its first declaration, conditional or not,
  and the names come in the order in which they first occur (`signatures`);
* a declaration is reported if it is unconditional and its name is known from outside or belongs to an earlier
  unconditional declaration (`redeclared`).
-/

namespace PhpLowering
namespace Declarations

variable (symbols : Symbols) {heads earlier : List FunctionHead} {head : FunctionHead} {d : Declaration}
  {ds ds' : List Declaration} {found : Found} {k : String}

/-! ## The specification -/

/-- A function of this name is known from outside. -/
def isKnown (head : FunctionHead) : Bool :=
  (symbols.function? head.name).isSome

/-- The name, and the signature of its first declaration. -/
def entryOf? (heads : List FunctionHead) (k : String) : Option (String × Signature) :=
  (heads.find? (key · == k)).map fun head => (k, signatureOf head)

/-- The names that are not known from outside, in the order in which they first occur. -/
def newNames (heads : List FunctionHead) : List String :=
  ((heads.filter (!isKnown symbols ·)).map key).eraseDups

/-- The functions that are declared and not known from outside. -/
def signatures (heads : List FunctionHead) : List (String × Signature) :=
  (newNames symbols heads).filterMap (entryOf? heads)

/-- The declarations of names that are known or have been declared before. -/
def redeclared (earlier : List FunctionHead) : List Declaration → List Diagnostic
  | [] => []
  | d :: rest =>
    let again := isKnown symbols d.head || earlier.any (key · == key d.head)
    (if again then [⟨.functionRedeclared d.head.name, d.span⟩] else []) ++ redeclared (earlier ++ [d.head]) rest

variable {symbols}

/-! ## Names -/

/-- Functions of one name are known alike. -/
theorem isKnown_congr {head head' : FunctionHead} (h : key head = key head') :
    isKnown symbols head = isKnown symbols head' := by
  have hname : Text.foldCase head.name = Text.foldCase head'.name := h
  unfold isKnown Symbols.function?
  rw [Text.foldCase_globalName, Text.foldCase_globalName, hname]

theorem mem_newNames : k ∈ newNames symbols heads ↔ ∃ head ∈ heads, isKnown symbols head = false ∧ key head = k := by
  rw [newNames, List.mem_eraseDups, List.mem_map]
  simp only [List.mem_filter, Bool.not_eq_true', and_assoc]

theorem key_mem_of_mem_newNames (h : k ∈ newNames symbols heads) : k ∈ heads.map key := by
  obtain ⟨head, hhead, -, rfl⟩ := mem_newNames.mp h
  exact List.mem_map_of_mem hhead

variable (symbols) in
/-- A function that is not known from outside, with a name that has not been declared. -/
def IsNew (heads : List FunctionHead) (head : FunctionHead) : Prop :=
  isKnown symbols head = false ∧ key head ∉ newNames symbols heads

/-- No declaration so far has the name of a new function. -/
theorem IsNew.key_notMem (h : IsNew symbols heads head) : key head ∉ heads.map key := fun hmem => by
  obtain ⟨other, hother, heq⟩ := List.mem_map.mp hmem
  exact h.2 (mem_newNames.mpr ⟨other, hother, isKnown_congr heq ▸ h.1, heq⟩)

theorem newNames_concat_of_new (h : IsNew symbols heads head) :
    newNames symbols (heads ++ [head]) = newNames symbols heads ++ [key head] := by
  have hfilter : [head].filter (!isKnown symbols ·) = [head] := by simp [h.1]
  have hnew : [key head].removeAll ((heads.filter (!isKnown symbols ·)).map key) = [key head] := by
    simpa [List.removeAll, newNames] using h.2
  rw [newNames, List.filter_append, List.map_append, List.eraseDups_append, hfilter, List.map_singleton, hnew]
  rfl

theorem newNames_concat_of_old (h : ¬ IsNew symbols heads head) :
    newNames symbols (heads ++ [head]) = newNames symbols heads := by
  have hnone : ((([head].filter (!isKnown symbols ·)).map key).removeAll
      ((heads.filter (!isKnown symbols ·)).map key)) = [] := by
    cases hknown : isKnown symbols head with
    | true => simp [hknown]
    | false =>
      have hold : key head ∈ newNames symbols heads := by_contra fun hnew => h ⟨hknown, hnew⟩
      simpa [hknown, List.removeAll, newNames, and_assoc] using hold
  rw [newNames, List.filter_append, List.map_append, List.eraseDups_append, hnone, List.eraseDups_nil,
    List.append_nil]
  rfl

/-! ## Signatures -/

theorem exists_first (h : k ∈ heads.map key) : ∃ first, heads.find? (key · == k) = some first := by
  obtain ⟨head, hhead, rfl⟩ := List.mem_map.mp h
  exact Option.isSome_iff_exists.mp (List.find?_isSome.mpr ⟨head, hhead, beq_iff_eq.mpr rfl⟩)

/-- The first declaration of a name stays the first one. -/
theorem entryOf?_concat (hk : k ∈ heads.map key) (head : FunctionHead) :
    entryOf? (heads ++ [head]) k = entryOf? heads k := by
  obtain ⟨first, hfirst⟩ := exists_first hk
  rw [entryOf?, entryOf?, List.find?_append, hfirst, Option.some_or]

theorem entryOf?_last (hk : key head ∉ heads.map key) :
    entryOf? (heads ++ [head]) (key head) = some (key head, signatureOf head) := by
  have hnone : heads.find? (key · == key head) = none :=
    List.find?_eq_none.mpr fun other hother heq => hk (beq_iff_eq.mp heq ▸ List.mem_map_of_mem hother)
  rw [entryOf?, List.find?_append, hnone, Option.none_or, List.find?_singleton, if_pos (beq_self_eq_true _),
    Option.map_some]

theorem lookup_signatures_eq_none_iff : (signatures symbols heads).lookup k = none ↔ k ∉ newNames symbols heads := by
  rw [List.lookup_eq_none_iff]
  constructor
  · intro h hk
    obtain ⟨first, hfirst⟩ := exists_first (key_mem_of_mem_newNames hk)
    have hentry : entryOf? heads k = some (k, signatureOf first) := by rw [entryOf?, hfirst, Option.map_some]
    exact absurd (h _ (List.mem_filterMap.mpr ⟨k, hk, hentry⟩)) (by simp)
  · intro hk p hp
    obtain ⟨k', hk', hentry⟩ := List.mem_filterMap.mp hp
    obtain ⟨first, -, rfl⟩ := Option.map_eq_some_iff.mp hentry
    exact bne_iff_ne.mpr fun heq => hk (heq ▸ hk')

theorem filterMap_entry?_concat (head : FunctionHead) :
    (newNames symbols heads).filterMap (entryOf? (heads ++ [head])) = signatures symbols heads :=
  List.filterMap_congr fun _ hk => entryOf?_concat (key_mem_of_mem_newNames hk) head

/-- A new function is found with its signature. -/
theorem signatures_concat_of_new (h : IsNew symbols heads head) :
    signatures symbols (heads ++ [head]) = signatures symbols heads ++ [(key head, signatureOf head)] := by
  rw [signatures, newNames_concat_of_new h, List.filterMap_append, filterMap_entry?_concat, List.filterMap_cons,
    entryOf?_last h.key_notMem, List.filterMap_nil]

/-- Any other declaration makes no difference. -/
theorem signatures_concat_of_old (h : ¬ IsNew symbols heads head) :
    signatures symbols (heads ++ [head]) = signatures symbols heads := by
  rw [signatures, newNames_concat_of_old h, filterMap_entry?_concat]

/-! ## One declaration after another -/

theorem redeclared_append (earlier : List FunctionHead) (ds ds' : List Declaration) :
    redeclared symbols earlier (ds ++ ds') =
      redeclared symbols earlier ds ++ redeclared symbols (earlier ++ ds.map Declaration.head) ds' := by
  induction ds generalizing earlier with
  | nil => rw [List.map_nil, List.append_nil]; rfl
  | cons d rest ih =>
    rw [List.cons_append, redeclared, redeclared, ih, List.append_assoc, List.map_cons, List.append_assoc]
    rfl

variable (symbols) in
/-- An unconditional declaration makes a name its own, unless the name is known from outside. -/
def Takes (k : String) (d : Declaration) : Prop :=
  d.conditional = false ∧ isKnown symbols d.head = false ∧ key d.head = k

variable (symbols) in
/-- What has been found after some declarations. -/
structure Found.Specified (ds : List Declaration) (found : Found) : Prop where
  functions : found.functions = signatures symbols (ds.map Declaration.head)
  unconditional : ∀ k, k ∈ found.unconditional ↔ ∃ d ∈ ds, Takes symbols k d
  diagnostics : found.diagnostics = redeclared symbols [] (ds.filter (!·.conditional))

/-- Functions are added that are new. -/
theorem functions_addFunction (h : found.functions = signatures symbols heads) (head : FunctionHead) :
    (addFunction symbols head found).functions = signatures symbols (heads ++ [head]) := by
  have hnew : ((symbols.function? head.name).isNone && (found.functions.lookup (key head)).isNone) = true ↔
      IsNew symbols heads head := by
    rw [Bool.and_eq_true, Option.isNone_iff_eq_none, Option.isNone_iff_eq_none, h, lookup_signatures_eq_none_iff,
      IsNew, isKnown, Option.isSome_eq_false_iff, Option.isNone_iff_eq_none]
  unfold addFunction
  by_cases hcase : IsNew symbols heads head
  · rw [signatures_concat_of_new hcase, ← h]
    exact congrArg Found.functions (if_pos (hnew.mpr hcase))
  · rw [signatures_concat_of_old hcase, ← h]
    exact congrArg Found.functions (if_neg (mt hnew.mp hcase))

theorem unconditional_addFunction (head : FunctionHead) (found : Found) :
    (addFunction symbols head found).unconditional = found.unconditional := by
  unfold addFunction
  dsimp only
  split <;> rfl

theorem diagnostics_addFunction (head : FunctionHead) (found : Found) :
    (addFunction symbols head found).diagnostics = found.diagnostics := by
  unfold addFunction
  dsimp only
  split <;> rfl

/-- The heads of the unconditional declarations. -/
def unconditionalHeads (ds : List Declaration) : List FunctionHead :=
  (ds.filter (!·.conditional)).map Declaration.head

theorem redeclared_concat_of_conditional (h : d.conditional = true) :
    redeclared symbols [] ((ds ++ [d]).filter (!·.conditional)) = redeclared symbols [] (ds.filter (!·.conditional)) := by
  have hnone : [d].filter (!·.conditional) = [] := by simp [h]
  rw [List.filter_append, hnone, List.append_nil]

theorem redeclared_concat_of_unconditional (h : d.conditional = false) :
    redeclared symbols [] ((ds ++ [d]).filter (!·.conditional)) =
      redeclared symbols [] (ds.filter (!·.conditional)) ++
        if isKnown symbols d.head || (unconditionalHeads ds).any (key · == key d.head) then
          [⟨.functionRedeclared d.head.name, d.span⟩]
        else [] := by
  have hkept : [d].filter (!·.conditional) = [d] := by simp [h]
  rw [List.filter_append, hkept, redeclared_append, List.nil_append, redeclared, redeclared, List.append_nil]
  rfl

/-- A declaration is met as one that has been made before. -/
theorem Found.Specified.again_eq (h : found.Specified symbols ds) (head : FunctionHead) :
    (isKnown symbols head || found.unconditional.contains (key head)) =
      (isKnown symbols head || (unconditionalHeads ds).any (key · == key head)) := by
  cases hknown : isKnown symbols head with
  | true => rfl
  | false =>
    rw [Bool.false_or, Bool.false_or, Bool.eq_iff_iff, List.contains_iff_mem, h.unconditional, List.any_eq_true]
    constructor
    · rintro ⟨d, hd, hconditional, -, hkey⟩
      exact ⟨d.head, List.mem_map_of_mem (List.mem_filter.mpr ⟨hd, by simp [hconditional]⟩), beq_iff_eq.mpr hkey⟩
    · rintro ⟨other, hother, hkey⟩
      obtain ⟨d, hd, rfl⟩ := List.mem_map.mp hother
      obtain ⟨hd, hconditional⟩ := List.mem_filter.mp hd
      have hkey := beq_iff_eq.mp hkey
      exact ⟨d, hd, by simpa using hconditional, isKnown_congr hkey ▸ hknown, hkey⟩

/-- The names that are taken after one more declaration. -/
theorem exists_takes_concat (k : String) : (∃ d' ∈ ds ++ [d], Takes symbols k d') ↔
    (∃ d' ∈ ds, Takes symbols k d') ∨ Takes symbols k d := by
  simp [or_and_right, exists_or]

theorem Found.Specified.declare (h : found.Specified symbols ds) (d : Declaration) :
    (Declarations.declare symbols d.conditional d.head d.span found).Specified symbols (ds ++ [d]) := by
  have hheads : (ds ++ [d]).map Declaration.head = ds.map Declaration.head ++ [d.head] := by
    rw [List.map_append, List.map_singleton]
  unfold Declarations.declare
  cases hconditional : d.conditional with
  | true =>
    rw [if_pos rfl]
    refine ⟨hheads ▸ functions_addFunction h.functions d.head, fun k => ?_, ?_⟩
    · rw [unconditional_addFunction, exists_takes_concat, h.unconditional, iff_self_or]
      exact fun htakes => nomatch hconditional.symm.trans htakes.1
    · rw [diagnostics_addFunction, h.diagnostics, redeclared_concat_of_conditional hconditional]
  | false =>
    have hagain := h.again_eq d.head
    rw [if_neg nofun]
    split
    · rename_i hbefore
      have hbefore : (isKnown symbols d.head || found.unconditional.contains (key d.head)) = true := hbefore
      have hcontains (hunknown : isKnown symbols d.head = false) : key d.head ∈ found.unconditional := by
        rwa [hunknown, Bool.false_or, List.contains_iff_mem] at hbefore
      have hold : ¬ IsNew symbols (ds.map Declaration.head) d.head := fun hnew => by
        obtain ⟨d', hd', -, hunknown, hkey⟩ := (h.unconditional _).mp (hcontains hnew.1)
        exact hnew.2 (mem_newNames.mpr ⟨d'.head, List.mem_map_of_mem hd', hunknown, hkey⟩)
      refine ⟨?_, fun k => ?_, ?_⟩
      · rw [hheads, signatures_concat_of_old hold]
        exact h.functions
      · rw [exists_takes_concat, h.unconditional, iff_self_or]
        rintro ⟨-, hunknown, rfl⟩
        exact (h.unconditional _).mp (hcontains hunknown)
      · rw [redeclared_concat_of_unconditional hconditional, if_pos (hagain ▸ hbefore), ← h.diagnostics]
    · rename_i hbefore
      have hbefore : ¬ (isKnown symbols d.head || found.unconditional.contains (key d.head)) = true := hbefore
      have hunknown : isKnown symbols d.head = false := (Bool.or_eq_false_iff.mp (Bool.eq_false_iff.mpr hbefore)).1
      refine ⟨?_, fun k => ?_, ?_⟩
      · rw [hheads]
        have hsame : { found with unconditional := key d.head :: found.unconditional }.functions =
            signatures symbols (ds.map Declaration.head) := h.functions
        exact functions_addFunction hsame d.head
      · have htakes : Takes symbols k d ↔ k = key d.head :=
          ⟨fun htakes => htakes.2.2.symm, fun hk => ⟨hconditional, hunknown, hk.symm⟩⟩
        rw [unconditional_addFunction, exists_takes_concat, htakes, ← h.unconditional, or_comm]
        exact List.mem_cons
      · rw [diagnostics_addFunction, redeclared_concat_of_unconditional hconditional, if_neg (hagain ▸ hbefore),
          List.append_nil, ← h.diagnostics]

theorem specified_declareAll (ds : List Declaration) : (declareAll symbols ds {}).Specified symbols ds := by
  induction ds using List.reverseRecOn with
  | nil => exact ⟨rfl, fun k => ⟨nofun, fun ⟨_, hd, _⟩ => nomatch hd⟩, rfl⟩
  | append_singleton ds d ih =>
    rw [declareAll_append]
    exact ih.declare d

variable (symbols) in
/-- **What is collected from a unit.**  A function that is not known from outside is found under its folded name, with
the signature of the first declaration of that name in the whole unit; and what is reported is that unconditional
declarations repeat what is known from outside or declared unconditionally before them. -/
theorem collect_spec (statements : List Stmt) :
    (collect symbols statements).functions = signatures symbols (Node.heads (Stmt.nodesOf statements)) ∧
      (collect symbols statements).diagnostics =
        redeclared symbols [] ((Stmt.declarationsOf false statements).filter (!·.conditional)) := by
  have hspec : (declareAll symbols (Stmt.declarationsOf false statements) {}).Specified symbols _ :=
    specified_declareAll _
  rw [← collect_eq_foldl] at hspec
  exact ⟨Stmt.heads_declarationsOf false statements ▸ hspec.functions, hspec.diagnostics⟩

end Declarations
end PhpLowering
