import PhpLowering.Proofs.Lowering.Elements
import PhpLowering.Proofs.Tree.Roles

/-!
# What the code of a location does to the stack

The addressing half of a location leaves on the stack what the location is found by, and
the other half takes it off again.  `Expr.address` is what lies between the two, and
`Place.Meets` says of all parts of a location at once that they agree on it.

`Fulfils E e code` is what the code of an expression has to do in each of the roles that the
expression can serve in.
-/

namespace PhpLowering

/-- What the addressing half of an expression leaves on the stack. -/
def Expr.address : Expr → List Slot
  | .item .. => [.boxed, .boxed]
  | .append .. => [.boxed]
  | _ => []

namespace Lowering

open Pass (Ends)

variable {E : CompileError → Prop} {c : Scene} {S S' A : List Slot} {s : State Chunk}
  {cfg : Setting}

/-! ## Rules -/

theorem Ready.withTable {table : RuleTable} (hs : Ready E c S s)
    (h : s.table.Regular → table.Regular) : Ready E c S { s with table } := by
  obtain ⟨ha, hm⟩ := hs
  exact ⟨{ ha with table := ha.table.imp h }, hm⟩

/-- A question to the rule table that is answered as long as the table is regular. -/
theorem Ready.onTable {α : Type} {x : Pass Fault RuleTable α} {Q : α → Prop} (hs : Ready E c S s)
    (hx : Ends x s.table (fun a t => Q a ∧ (s.table.Regular → t.Regular))
      fun _ => ¬ s.table.Regular) :
    Ends (Lowering.onTable x) s (fun a t => Q a ∧ Ready E c S t) E := by
  rcases hrun : x s.table with ⟨result, table⟩
  cases result with
  | ok a =>
    obtain ⟨hQ, hregular⟩ := hx.of_ok hrun
    refine .of_eq (t := { s with table }) ?_ ⟨hQ, hs.withTable hregular⟩
    simp only [Lowering.onTable, hrun]
  | error f =>
    have hE : E (.internal f) := hs.1.table.error fun h => (hx.of_error hrun h).elim
    refine .intro (fun a t h => ?_) (fun e t h => ?_)
    · simp only [Lowering.onTable, hrun] at h
      exact nomatch h
    · simp only [Lowering.onTable, hrun] at h
      obtain rfl := Except.error.inj (Prod.mk.inj h).1
      exact hE

theorem moves_onTable (hcfg : cfg.registry = .standard) (kind : ExprKind) (id : Nat)
    (S : List Slot) :
    Moves E S (onTable (RuleTable.expr cfg.registry kind id)) fun handle S' =>
      handle.rule = kind ∧ S' = S := by
  intro c s hs
  rw [hcfg]
  refine (hs.onTable (RuleTable.ends_expr s.table kind id)).mono ?_
  rintro handle t ⟨rfl, ht⟩
  exact ⟨S, ⟨rfl, rfl⟩, ht⟩

/-- A node is handled by the rule made for its kind. -/
theorem moves_byRule (hcfg : cfg.registry = .standard) {kind : ExprKind} {tag : ExprTag}
    {code : Home ExprKind → Code Chunk} {use : Use} {Q : TypeCode → List Slot → Prop}
    (h : ∀ home, Moves E S (code home use) Q) : Moves E S (byRule cfg kind tag code use) Q := by
  refine (moves_onTable hcfg kind tag.id S).bind ?_
  rintro handle _ ⟨hrule, rfl⟩
  rw [if_pos hrule]
  exact h handle.home

/-! ## The code of an expression in its roles -/

/-- The code of a location stores to what it has addressed. -/
structure Stores (E : CompileError → Prop) (A : List Slot) (code : Code Chunk) : Prop where
  prepare : ∀ S, Moves E S (code (.prepare .write)) fun _ S' => S' = A ++ S
  store : ∀ S, Moves E (.boxed :: (A ++ S)) (code .store) fun _ S' => S' = S

/-- The code of a location loads what it has addressed. -/
structure Loads (E : CompileError → Prop) (A : List Slot) (code : Code Chunk) : Prop where
  prepare : ∀ S, Moves E S (code (.prepare .read)) fun _ S' => S' = A ++ S
  load : ∀ S, Moves E (A ++ S) (code .load) fun a S' => S' = .boxed :: S ∧ a.IsBoxed

/-- The code of an expression does what is asked of it in every role that the expression can serve
in. -/
structure Fulfils (E : CompileError → Prop) (e : Expr) (code : Code Chunk) : Prop where
  value : Granted E (e.Serves E .value) → Yields E (e.access ≠ .none) (code .value)
  containerRead : Granted E (e.Serves E .container) → Boxes E (code .containerRead)
  arrayForWrite : Granted E (e.Serves E .container) → Boxes E (code .arrayForWrite)
  target : Granted E (e.Serves E .target) → Stores E e.address code
  updated : Granted E (e.Serves E .updated) → Loads E e.address code
  removed : Granted E (e.Serves E .removed) → ∀ S, Moves E S (code .unset) fun _ S' => S' = S

namespace Fulfils

variable {e : Expr} {code : Code Chunk}

/-- An operand is boxed or converted. -/
theorem operand (h : Fulfils E e code) (hs : Granted E (e.Serves E .operand)) :
    Yields E True (code .value) :=
  (h.value (hs.imp fun hs => (Expr.serves_operand_iff.mp hs).1)).mono
    (hs.imp fun hs _ => (Expr.serves_operand_iff.mp hs).2)

theorem boxes (h : Fulfils E e code) (hs : Granted E (e.Serves E .operand)) :
    Boxes E (boxed code) :=
  (h.operand hs).boxes (.mk trivial)

theorem byRule (hcfg : cfg.registry = .standard) {kind : ExprKind} {tag : ExprTag}
    {code : Home ExprKind → Code Chunk} (h : ∀ home, Fulfils E e (code home)) :
    Fulfils E e (byRule cfg kind tag code) where
  value hs S := moves_byRule hcfg fun home => (h home).value hs S
  containerRead hs S := moves_byRule hcfg fun home => (h home).containerRead hs S
  arrayForWrite hs S := moves_byRule hcfg fun home => (h home).arrayForWrite hs S
  target hs :=
    { prepare := fun S => moves_byRule hcfg fun home => ((h home).target hs).prepare S
      store := fun S => moves_byRule hcfg fun home => ((h home).target hs).store S }
  updated hs :=
    { prepare := fun S => moves_byRule hcfg fun home => ((h home).updated hs).prepare S
      load := fun S => moves_byRule hcfg fun home => ((h home).updated hs).load S }
  removed hs S := moves_byRule hcfg fun home => (h home).removed hs S

/-- An expression that is no location has a value only. -/
theorem ofValue {value : Emit Chunk TypeCode} (hplace : ¬ e.isPlace = true)
    (h : Granted E (e.Serves E .value) → Yields E (e.access ≠ .none) value) :
    Fulfils E e (valueCode e.kind value) := by
  have hboxes : Granted E (e.Serves E .container) → Boxes E (do box (← value)) := by
    intro hs S
    have hop := hs.imp fun hs => Expr.serves_operand_iff.mp (hs.operand_of_container hplace)
    refine (h (hop.imp fun hop => hop.1) S).bind ?_
    rintro a S' ⟨rfl, ha⟩
    exact moves_box (ha.imp₂ hop fun h hop => h hop.2) S
  exact
    { value := h
      containerRead := hboxes
      arrayForWrite := hboxes
      target := fun hs =>
        { prepare := fun _ => .fault hs fun hs => hs.refused hplace
          store := fun _ => .fault hs fun hs => hs.refused hplace }
      updated := fun hs =>
        { prepare := fun _ => .fault hs fun hs => hs.refused hplace
          load := fun _ => .fault hs fun hs => hs.refused hplace }
      removed := fun hs _ => .fault hs fun hs => hs.refused hplace }

end Fulfils

/-! ## Locations -/

/-- The parts of a location agree on what it is found by, as far as it may be read or removed. -/
structure Place.Meets (E : CompileError → Prop) (e : Expr) (p : Place Chunk) : Prop where
  prepareWrite : ∀ S, Moves E S (p.prepare .write) fun _ S' => S' = e.address ++ S
  prepareRead : Granted E (e.Readable E) → ∀ S,
    Moves E S (p.prepare .read) fun _ S' => S' = e.address ++ S
  load : Granted E (e.Readable E) → ∀ S,
    Moves E (e.address ++ S) p.load fun a S' => S' = .boxed :: S ∧ a.IsBoxed
  store : ∀ S, Moves E (.boxed :: (e.address ++ S)) p.store fun _ S' => S' = S
  loadRef : Boxes E p.loadRef
  arrayForWrite : Boxes E p.arrayForWrite
  unset : Granted E (e.Removable E) → ∀ S, Moves E S p.unset fun _ S' => S' = S

namespace Place.Meets

variable {e : Expr} {p : Place Chunk}

/-- Addressing a location and reading it. -/
theorem read (h : p.Meets E e) (hread : Granted E (e.Readable E)) :
    Boxes E (do p.prepare .read; p.load) := by
  intro S
  refine (h.prepareRead hread S).andThen fun _ => ?_
  exact h.load hread S

theorem value (h : p.Meets E e) (hread : Granted E (e.Readable E)) (kind : ExprKind) {access : Access}
    (haccess : Granted E (access = .none ∨ access = .read ∨ access = .readRef ∨
      access = .readUnknown)) : Yields E (access ≠ .none) (p.value kind access) := by
  intro S
  unfold Place.value
  split
  · exact (h.read hread).yields S
  · exact h.loadRef.yields S
  · exact h.loadRef.yields S
  · refine (h.prepareRead hread S).andThen fun _ => ?_
    refine (h.load hread S).bind ?_
    rintro _ _ ⟨rfl, -⟩
    refine (moves_pop .boxed S).andThen fun _ => ?_
    exact .pure ⟨rfl, .mk fun hne => (hne rfl).elim⟩
  · rename_i hread href hunknown hnone
    exact .fault haccess fun ha => by
      rcases ha with h | h | h | h
      · exact (hnone h).elim
      · exact (hread h).elim
      · exact (href h).elim
      · exact (hunknown h).elim

/-- A step whose answer does not matter. -/
theorem answerVoid {x : Emit Chunk Unit} {S' : List Slot}
    (h : Moves E S x fun _ T => T = S') :
    Moves E S (do x; return TypeCode.void) fun _ T => T = S' := by
  refine h.bind ?_
  rintro _ _ rfl
  exact .pure rfl

/-- The code of a location serves in all roles. -/
theorem fulfils (hplace : e.isPlace = true) (h : Granted E (e.Parts E) → p.Meets E e) :
    Fulfils E e (p.code e.kind e.access) where
  value hs := by
    refine (h (hs.imp fun hs => hs.2)).value (hs.imp fun hs => hs.1.2) e.kind (hs.imp fun hs => ?_)
    rcases hs.1.1 with h | h | ⟨-, h⟩
    · exact Or.inl h
    · exact Or.inr (Or.inl h)
    · exact Or.inr (Or.inr h)
  containerRead hs := (h (hs.imp fun hs => hs.2)).read (hs.imp fun hs => hs.1.2)
  arrayForWrite hs := (h (hs.imp fun hs => hs.2)).arrayForWrite
  target hs :=
    have hp := h (hs.imp fun hs => (Expr.asPlace_iff hplace).mp hs)
    { prepare := fun S => answerVoid (hp.prepareWrite S)
      store := fun S => answerVoid (hp.store S) }
  updated hs :=
    have hs := hs.imp (Expr.asPlace_iff hplace).mp
    have hp := h (hs.imp fun hs => hs.2)
    { prepare := fun S => answerVoid (hp.prepareRead (hs.imp fun hs => hs.1) S)
      load := hp.load (hs.imp fun hs => hs.1) }
  removed hs S :=
    have hs := hs.imp (Expr.asPlace_iff hplace).mp
    answerVoid ((h (hs.imp fun hs => hs.2)).unset (hs.imp fun hs => hs.1) S)

end Place.Meets

theorem variablePlace_meets (tag : ExprTag) (name : String) :
    (variablePlace name).Meets E (.var tag name) where
  prepareWrite _ := .pure rfl
  prepareRead _ _ := .pure rfl
  load _ S := by
    refine (moves_load (.loadVar name) S rfl nofun (fun _ => rfl) rfl nofun).andThen fun _ => ?_
    exact .pure ⟨rfl, rfl, nofun⟩
  store S := moves_take (.storeVar name) S rfl Instruction.eq_boxed_of_mem (fun _ => rfl) rfl nofun
  loadRef S := by
    refine (moves_load (.loadVarRef name) S rfl nofun (fun _ => rfl) rfl nofun).andThen fun _ => ?_
    exact .pure ⟨rfl, rfl, nofun⟩
  arrayForWrite S := by
    refine (moves_load (.loadVarArray name) S rfl nofun (fun _ => rfl) rfl nofun).andThen fun _ => ?_
    exact .pure ⟨rfl, rfl, nofun⟩
  unset _ S := moves_emit (.unsetVar name) [] [] S rfl nofun (fun _ => rfl) rfl nofun

/-- A primitive that answers in general form. -/
theorem moves_callBoxed {op : RuntimeOp} (h : op.result.IsBoxed) (S : List Slot) :
    Moves E (List.replicate op.arity .boxed ++ S) (call op) fun a S' =>
      S' = .boxed :: S ∧ a.IsBoxed := by
  refine (moves_callResult op S).mono ?_
  rintro a S' ⟨rfl, rfl⟩
  exact ⟨h.push S, h⟩

theorem itemPlace_meets {tag : ExprTag} {a i : Expr} {container : Code Chunk}
    {key : Emit Chunk TypeCode}
    (hread : Boxes E (container .containerRead)) (hwrite : Boxes E (container .arrayForWrite))
    (hkey : ∀ S, Moves E S key fun _ S' => S' = .boxed :: S) :
    (itemPlace container key).Meets E (.item tag a i) := by
  have hprepare : ∀ half S, Moves E S (itemPlace.prepare container key half) fun _ S' =>
      S' = .boxed :: .boxed :: S := by
    have hthen : ∀ {x : Emit Chunk TypeCode}, Boxes E x → ∀ S, Moves E S (do
        let _ ← x
        let _ ← key) fun _ S' => S' = .boxed :: .boxed :: S := by
      intro x hx S
      refine (hx S).bind ?_
      rintro _ _ ⟨rfl, -⟩
      refine (hkey _).andThen fun _ => ?_
      exact .pure rfl
    intro half S
    cases half with
    | write => exact hthen hwrite S
    | read => exact hthen hread S
  refine
    { prepareWrite := hprepare .write, prepareRead := fun _ => hprepare .read, load := ?_
      store := fun S => moves_call .setItem S, loadRef := ?_, arrayForWrite := ?_, unset := ?_ }
  · intro _ S
    refine Moves.bind (Q := fun _ S' => S' = .boxed :: .boxed :: S) (.peek fun _ => rfl) ?_
    rintro quiet _ rfl
    cases quiet with
    | true => exact moves_callBoxed (by decide : RuntimeOp.getItemQuiet.result.IsBoxed) S
    | false => exact moves_callBoxed (by decide : RuntimeOp.getItem.result.IsBoxed) S
  · intro S
    refine (hprepare .write S).andThen fun _ => ?_
    exact moves_callBoxed (by decide : RuntimeOp.getItemRef.result.IsBoxed) S
  · intro S
    refine (hprepare .write S).andThen fun _ => ?_
    exact moves_callBoxed (by decide : RuntimeOp.getItemForWrite.result.IsBoxed) S
  · intro _ S
    refine (hprepare .read S).andThen fun _ => ?_
    exact moves_call .unsetItem S

theorem appendPlace_meets {tag : ExprTag} {a : Expr} {container : Code Chunk}
    (hwrite : Boxes E (container .arrayForWrite)) :
    (appendPlace container).Meets E (.append tag a) := by
  have hprepare : ∀ S, Moves E S (appendPlace.prepareWrite container) fun _ S' =>
      S' = .boxed :: S := by
    intro S
    refine (hwrite S).bind ?_
    rintro _ _ ⟨rfl, -⟩
    exact .pure rfl
  refine
    { prepareWrite := hprepare, prepareRead := fun hread _ => .fault hread fun h => h rfl
      load := fun hread _ => .fault hread fun h => h rfl, store := fun S => moves_call .append S
      loadRef := ?_, arrayForWrite := ?_, unset := fun hunset _ => .fault hunset fun h => h rfl }
  · intro S
    refine (hprepare S).andThen fun _ => ?_
    exact moves_callBoxed (by decide : RuntimeOp.appendReference.result.IsBoxed) S
  · intro S
    refine (hprepare S).andThen fun _ => ?_
    exact moves_callBoxed (by decide : RuntimeOp.appendArray.result.IsBoxed) S

end Lowering
end PhpLowering
