import PhpLowering.Proofs.CallOrder
import PhpLowering.Proofs.Lowering.Halves

/-!
# The two halves of an increment

An increment or decrement of an item finds the item twice, for writing and for reading.  Analysis keeps
the chain of items that it goes down, with what is left of every index in its place (`BecomesNode.path`).  The
code evaluates each index once if it has to be kept, but a variable is loaded again for the other half.

**`keys_of_incDec`** says what comes of that: at every position both halves use the same key, unless the
index there is a variable whose value has changed in between.
-/

namespace PhpLowering

/-! ## What analysis leaves of a chain of items -/

namespace Analysis

open Expr (Leaves)

variable {cfg : Setting} {declared : List (String × Literal)} {indices : List Expr} {name : String}

variable (cfg declared) in
/-- What is left of an index, which is read. -/
structure IndexLeft (index index' : Expr) : Prop where
  leaves : Leaves (settled cfg declared) index index'
  access : index'.access = .read

variable (cfg declared) in
/-- A chain of items of the same variable, with what is left of the indices. -/
def PathLeft (name : String) (indices : List Expr) (node : Expr) : Prop :=
  ∃ indices', node.path? = some (name, indices') ∧ List.Forall₂ (IndexLeft cfg declared) indices indices'

theorem BecomesNode.indexLeft {index index' : Expr} (h : BecomesNode cfg declared index .read index') :
    IndexLeft cfg declared index index' :=
  ⟨h.leaves, h.suits.access (Or.inr rfl)⟩

/-- **A chain of items is left with every index in its place.** -/
theorem BecomesNode.path : ∀ {e node : Expr} {access : Access} {indices : List Expr},
    BecomesNode cfg declared e access node → e.path? = some (name, indices) →
      PathLeft cfg declared name indices node
  | .var tag _, _, _, _, ⟨h, hkeep⟩, hpath => by
    cases hpath
    cases h
    cases hkeep.of_keep_residual
    exact ⟨[], rfl, .nil⟩
  | .item tag container index, _, _, _, ⟨h, hkeep⟩, hpath => by
    obtain ⟨init, hinit, rfl⟩ := Expr.path?_item hpath
    cases h with
    | @item _ _ _ _ container' index' hcontainer hindex =>
      obtain ⟨init', hcontainer', hleft⟩ := hcontainer.path hinit
      cases hkeep.of_keep_residual
      refine ⟨init' ++ [index'], ?_, List.rel_append hleft (.cons hindex.indexLeft .nil)⟩
      rw [Expr.path?, hcontainer', Option.map_some]
  | .literal .., _, _, _, _, hpath | .constant .., _, _, _, _, hpath | .append .., _, _, _, _, hpath
  | .array .., _, _, _, _, hpath | .concat .., _, _, _, _, hpath | .call .., _, _, _, _, hpath
  | .binary .., _, _, _, _, hpath | .unary .., _, _, _, _, hpath | .incDec .., _, _, _, _, hpath
  | .conditional .., _, _, _, _, hpath | .shortcut .., _, _, _, _, hpath | .list .., _, _, _, _, hpath
  | .assign .., _, _, _, _, hpath => nomatch hpath
termination_by structural e => e

/-- The target of an increment that is kept. -/
theorem path_of_incDec {a b : State} {access : Access} {tag tag' : ExprTag} {increment post : Bool}
    {target target' : Expr} (hcfg : cfg.registry = .standard) (ha : a.table.Regular)
    (hnode : kept (analyze cfg (.incDec tag increment post target) access) a =
      (.ok (.incDec tag' increment post target'), b)) (hpath : target.path? = some (name, indices)) :
    PathLeft cfg a.constants name indices target' := by
  obtain ⟨_, heq, htarget⟩ := (becomesNode_of_kept hcfg ha hnode).incDec
  cases heq
  exact htarget.path hpath

end Analysis

/-! ## Runs of an increment -/

namespace Lowering

open Pass (Ends)
open Config (Arrives)

variable {acfg : Analysis.Setting} {cfg : Setting} {a b : Analysis.State} {s t u v w x y : State Chunk}
  {target target' index : Expr} {indices : List Expr} {access : Access} {tag tag' : ExprTag}
  {increment post : Bool} {name : String} {kind : TypeCode}

/-- Every run of the code between two states uses the keys of an update and no others. -/
def RunsUpdate (indices : List Expr) (s t : State Chunk) : Prop :=
  ∀ (r : Routine) (h : Host) (c d : Config h) (trace : List (KeyUse h)), t.active.Grows r →
    c.pc = s.active.position → Arrives r t.active.position c trace d →
    ∃ first reads store, trace = first ++ (reads ++ [store]) ∧
      UpdateKeys h indices c.stack.length first reads store

/-- The value of an increment is loaded if it is used. -/
theorem ends_loadSaved (saved : Option Temp) :
    Ends (loadSaved saved) s (fun kind t => s.active.Grows t.active ∧
      Stretch t.active Instruction.KeyFree s.active.position t.active.position 0 kind.height) anyFailure := by
  cases saved with
  | none => exact .pure ⟨.refl _, .nil _ _⟩
  | some k =>
    refine (ends_emit (.loadTemp k) s).bind ?_
    rintro _ _ rfl
    have hload : Stretch (s.active.push (.loadTemp k)) Instruction.KeyFree s.active.position
        (s.active.position + 1) 0 1 :=
      .plain (s.active.code_push_self _) rfl (Nat.zero_le _) nofun
    refine .update_bind (.pure ?_)
    have hgrows := grows_active_returnTemp k (s.withActive (s.active.push (.loadTemp k))).sink
    have hposition := position_active_returnTemp k (s.withActive (s.active.push (.loadTemp k))).sink
    rw [show (s.withActive (s.active.push (.loadTemp k))).sink.active = s.active.push (.loadTemp k) from
      State.active_withActive _ _] at hgrows hposition
    rw [Routine.position_push] at hposition
    exact ⟨(s.active.grows_push _).trans hgrows, hposition ▸ hload.grows hgrows⟩

/-- A chain that has just been opened keeps nothing. -/
theorem inChain_openChain (hs : s.active.SlotsInOrder) : InChain (s.openChain false) :=
  ⟨hs, nofun, rfl⟩

/-- After an update the chain is closed, and what follows does nothing with keys. -/
theorem Updates.runs {n : Nat} (hs : s.active.SlotsInOrder)
    (hx : Updates indices index (s.openChain false) u v w y x) (hxt : x.endChain.active.Grows t.active)
    (hcode : Stretch t.active Instruction.KeyFree x.endChain.active.position t.active.position 0 n) :
    RunsUpdate (indices ++ [index]) s t := by
  obtain ⟨-, hclosed, -, -⟩ := hx.whole.endChain
  have hposition : x.endChain.active.position = x.active.position := congrArg Array.size (code_endChain x)
  intro r h c d trace hgrows hpc hrun
  obtain ⟨first, reads, store, mid, later, rfl, hmid, hlater, hkeys⟩ :=
    hx.keys (inChain_openChain hs) ((hclosed.trans hxt).trans hgrows) (hposition ▸ hxt.position) hpc hrun
  obtain ⟨last, hlast⟩ := (hcode.grows hgrows).passed (hmid.trans hposition.symm)
    (List.nil_append mid.stack).symm rfl (Nat.le_refl _) hlater
  obtain rfl := hlast.silent.eq_nil hlast.pc
  exact ⟨first, reads, store, rfl, hkeys⟩

theorem ends_incDecUsed : Ends (incDecUsed access) s (fun _ t => t = s) anyFailure := by
  cases access with
  | none | read | readUnknown => exact .pure rfl
  | _ => exact .fail trivial

/-- **The code of an increment of an item runs an update.** -/
theorem ends_incDec (hpath : target.path? = some (name, indices)) (hne : indices ≠ [])
    (hread : ∀ e ∈ indices, e.access = .read) (hs : s.active.SlotsInOrder) :
    Ends (lower cfg (.incDec tag increment post target) .value) s (fun _ t => RunsUpdate indices s t)
      anyFailure := by
  obtain ⟨itemTag, container, index, init, rfl, hcontainer, rfl⟩ := Expr.eq_item_of_path? hpath hne
  rw [lower]
  refine ends_byRule fun _ table => ?_
  show Ends (incDecValue cfg tag.access increment post (.item itemTag container index) _) _ _ _
  rw [incDecValue_eq]
  refine Ends.bind (Q := fun _ t => ∃ table, t = { s with table := table }) ?_ ?_
  · refine (ends_onRules _).bind ?_
    rintro _ _ ⟨table, rfl⟩
    exact .pure ⟨table, rfl⟩
  rintro isPlace _ ⟨table, rfl⟩
  split
  · exact .fail trivial
  refine ends_incDecUsed.bind ?_
  rintro used _ rfl
  have hopened : InChain (({ s with table := table } : State Chunk).openChain false) :=
    inChain_openChain hs
  refine .update_bind ((ends_update used increment post hcontainer hread hopened).bind ?_)
  rintro saved x ⟨u, v, w, y, hx⟩
  refine .update_bind ((ends_loadSaved saved).mono fun _ t ht => ?_)
  have hruns : RunsUpdate (init ++ [index]) { s with table := table } t := Updates.runs hs hx ht.1 ht.2
  exact hruns

/-- **Both halves of an increment use the same key at every position, unless the index there is a variable
whose value has changed in between.**  The indices of the code are what analysis leaves of those of the
source.  This holds for every run of the code to its end, whatever the variables hold at first and whatever
the evaluation of the indices does to them. -/
theorem keys_of_incDec (hcfg : acfg.registry = .standard) (ha : a.table.Regular)
    (hnode : Analysis.kept (Analysis.analyze acfg (.incDec tag increment post target) access) a =
      (.ok (.incDec tag' increment post target'), b))
    (hpath : target.path? = some (name, indices)) (hne : indices ≠ []) (hs : s.active.SlotsInOrder)
    (hrun : lower cfg (.incDec tag' increment post target') .value s = (.ok kind, t)) :
    ∃ indices', target'.path? = some (name, indices') ∧
      List.Forall₂ (Expr.Leaves (Analysis.settled acfg a.constants)) indices indices' ∧
      RunsUpdate indices' s t := by
  obtain ⟨indices', hpath', hindices⟩ := Analysis.path_of_incDec hcfg ha hnode hpath
  have hread : ∀ e ∈ indices', e.access = .read := by
    intro e he
    obtain ⟨k, hk⟩ := List.getElem?_of_mem he
    obtain ⟨index, -, hindex⟩ := exists_getElem?_of_forall₂ hindices.flip hk
    exact hindex.access
  have hne' : indices' ≠ [] := by
    rintro rfl
    cases hindices
    exact hne rfl
  exact ⟨indices', hpath', hindices.imp fun _ _ h => h.leaves, (ends_incDec hpath' hne' hread hs).of_ok hrun⟩

/-! ### Runs with integers -/

/-- Variables hold integers, every function returns 7, and there is nothing in an array but zeros. -/
def integers : Host where
  Value := Int32
  World := String → Int32
  literal v := match v with
    | .int i => i
    | _ => 0
  box _ v := v
  truth v := v != 0
  read name world := world name
  perform i args world := match i, args with
    | .storeVar name, [v] => some (⟨[], rfl⟩, fun other => if other = name then v else world other)
    | .callFunction .., _ => some (⟨[7], rfl⟩, world)
    | i, _ => some (⟨List.replicate i.yields 0, List.length_replicate⟩, world)

/-- A run starts with an empty stack, and every variable is 1. -/
def start : Config integers where
  pc := 0
  stack := []
  slots _ := (0 : Int32)
  world _ := (1 : Int32)

/-- What a primitive was called with as the key. -/
def opAndKey (use : KeyUse integers) : RuntimeOp × Int32 :=
  (use.op, use.key)

/-- The keys that are used when an expression is analysed, emitted and run by itself. -/
def keysAlone? (e : Expr) (nextId fuel : Nat) : Option (List (RuntimeOp × Int32)) := do
  let (_, t) ← alone? e nextId
  let (trace, _) ← Config.follow t.active t.active.position fuel start
  return trace.map opAndKey

theorem keysAlone?_eq_some {e : Expr} {nextId fuel : Nat} {keys : List (RuntimeOp × Int32)}
    (h : keysAlone? e nextId fuel = some keys) :
    ∃ node t trace d, alone? e nextId = some (node, t) ∧ Arrives t.active t.active.position start trace d ∧
      trace.map opAndKey = keys := by
  obtain ⟨⟨node, t⟩, halone, h⟩ := Option.bind_eq_some_iff.mp h
  obtain ⟨⟨trace, d⟩, hfollow, h⟩ := Option.bind_eq_some_iff.mp h
  exact ⟨node, t, trace, d, halone, Config.arrives_of_follow hfollow, Option.some.inj h⟩

/-- `$a[f()][$i]++` -/
def calledIndex : Expr :=
  .incDec ⟨0, {}, .none⟩ true true
    (.item ⟨1, {}, .none⟩
      (.item ⟨2, {}, .none⟩ (.var ⟨3, {}, .none⟩ "a") (.call ⟨4, {}, .none⟩ "f" []))
      (.var ⟨5, {}, .none⟩ "i"))

/-- Both indices are the same in both halves. -/
theorem keys_calledIndex :
    ∃ node t trace d, alone? calledIndex 6 = some (node, t) ∧
      Arrives t.active t.active.position start trace d ∧
      trace.map opAndKey = [(.getItemForWrite, 7), (.getItem, 7), (.getItem, 1), (.setItem, 1)] ∧
      ∃ indices first reads store, indices.length = 2 ∧ trace = first ++ (reads ++ [store]) ∧
        UpdateKeys integers indices 0 first reads store := by
  have hkeys : keysAlone? calledIndex 6 20 =
      some [(.getItemForWrite, 7), (.getItem, 7), (.getItem, 1), (.setItem, 1)] := by decide +kernel
  obtain ⟨node, t, trace, d, halone, hrun, htrace⟩ := keysAlone?_eq_some hkeys
  obtain ⟨⟨b, hnode⟩, kind, hlower⟩ := alone?_eq_some halone
  obtain ⟨target', rfl, -⟩ := leaves_of_incDec rfl RuleTable.regular_empty hnode
  have hslots : ({ sink := Chunk.new "unit" none none } : State Chunk).active.SlotsInOrder :=
    ⟨List.nodup_nil, nofun⟩
  obtain ⟨indices, -, hindices, hruns⟩ := keys_of_incDec rfl RuleTable.regular_empty hnode rfl
    (List.cons_ne_nil _ _) hslots hlower
  obtain ⟨first, reads, store, htrace', hupdate⟩ := hruns t.active integers start d trace (.refl _) rfl hrun
  exact ⟨_, t, trace, d, halone, hrun, htrace, indices, first, reads, store, hindices.length_eq.symm,
    htrace', hupdate⟩

/-- `$a[$i][$i = 5]++` -/
def assignedIndex : Expr :=
  .incDec ⟨0, {}, .none⟩ true true
    (.item ⟨1, {}, .none⟩
      (.item ⟨2, {}, .none⟩ (.var ⟨3, {}, .none⟩ "a") (.var ⟨4, {}, .none⟩ "i"))
      (.assign ⟨5, {}, .none⟩ (.var ⟨6, {}, .none⟩ "i") (.literal ⟨7, {}, .none⟩ (.int 5))))

/-- An index that is assigned to in a later one is not the same in both halves: the item is addressed for
writing in `$a[1]` and read in `$a[5]`. -/
theorem keys_differ_of_assignedIndex :
    ∃ node t trace d, alone? assignedIndex 8 = some (node, t) ∧
      Arrives t.active t.active.position start trace d ∧
      trace.map opAndKey = [(.getItemForWrite, 1), (.getItem, 5), (.getItem, 5), (.setItem, 5)] := by
  have hkeys : keysAlone? assignedIndex 8 30 =
      some [(.getItemForWrite, 1), (.getItem, 5), (.getItem, 5), (.setItem, 5)] := by decide +kernel
  exact keysAlone?_eq_some hkeys

end Lowering
end PhpLowering
