import PhpLowering.Lowering.Assignment
import PhpLowering.Proofs.Lowering.Places

/-!
# What the code of assignments does to the stack

Assignments, increments, array literals and destructurings.  An assignment addresses its
target, pushes the value and stores it, so between the two halves of the target the stack
holds the address of the target and nothing that the value could disturb.
-/

namespace PhpLowering

theorem Expr.isPlaceRule_kind (e : Expr) : e.kind.isPlaceRule = e.isPlace := by
  cases e <;> rfl

namespace Lowering

open Pass (Ends)

variable {E : CompileError → Prop} {c : Scene} {S : List Slot} {s : State Chunk} {access : Access}
  {cfg : Setting}

/-! ## Assignments -/

theorem moves_valueToStore (value : Expr) {code : Code Chunk} (h : Boxes E (boxed code))
    (S : List Slot) : Moves E S (valueToStore value code) fun _ S' => S' = .boxed :: S := by
  refine (h S).bind ?_
  rintro a _ ⟨rfl, -⟩
  split
  · exact moves_call .deepCopy S
  · exact .pure rfl

/-- What an assignment leaves: the value that was saved, or nothing. -/
theorem moves_loadSaved (saved : Option Temp) (h : access ≠ .none → saved.isSome = true)
    (S : List Slot) :
    Moves E S (loadSaved saved) fun a S' =>
      S' = a.push S ∧ Granted E (access ≠ .none → a.isValue = true) := by
  cases saved with
  | some t =>
    refine (moves_loadTemp t S).andThen fun _ => ?_
    refine (moves_returnTemp t _).andThen fun _ => ?_
    exact .pure ⟨rfl, .mk fun _ => rfl⟩
  | none => exact .pure ⟨rfl, .mk fun hne => nomatch h hne⟩

theorem yields_assign (hE : Tolerates E) {A : List Slot} {target : Code Chunk} (value : Expr)
    {valueCode : Code Chunk} (ht : Stores E A target) (hv : Boxes E (boxed valueCode)) :
    Yields E (access ≠ .none) (assignValue access target value valueCode) := by
  intro S
  have hrest : ∀ saved : Option Temp, (access ≠ .none → saved.isSome = true) →
      Moves E (.boxed :: (A ++ S)) (do
        let _ ← target .store
        Pass.update State.endChain
        loadSaved saved) fun a S' =>
          S' = a.push S ∧ Granted E (access ≠ .none → a.isValue = true) := by
    intro saved hsaved
    refine (ht.store S).andThen fun _ => ?_
    refine (moves_endChain _).andThen fun _ => ?_
    exact moves_loadSaved saved hsaved _
  refine (moves_beginChain false S).andThen fun _ => ?_
  refine (ht.prepare _).andThen fun _ => ?_
  refine (moves_valueToStore value hv _).andThen fun _ => ?_
  by_cases hnone : access = .none
  · simp only [if_pos hnone]
    exact hrest none fun hne => (hne hnone).elim
  · simp only [if_neg hnone]
    refine (moves_declareTemp hE _).andThen fun t => ?_
    refine (moves_saveTo t _ (Or.inl rfl)).andThen fun _ => ?_
    exact hrest (some t) fun _ => rfl

theorem moves_isPlace (hcfg : cfg.registry = .standard) (e : Expr) (S : List Slot) :
    Moves E S (isPlace cfg e) fun a S' => a = e.isPlace ∧ S' = S := by
  refine (moves_onTable hcfg e.kind e.id S).bind ?_
  rintro handle _ ⟨hrule, rfl⟩
  refine .pure ⟨?_, rfl⟩
  rw [hrule, e.isPlaceRule_kind]

theorem moves_incDecUsed (h : Granted E (access = .none ∨ access = .read)) (S : List Slot) :
    Moves E S (incDecUsed access) fun used S' => (access ≠ .none → used = true) ∧ S' = S := by
  unfold incDecUsed
  split
  · exact .pure ⟨fun hne => (hne rfl).elim, rfl⟩
  · exact .pure ⟨fun _ => rfl, rfl⟩
  · exact .pure ⟨fun _ => rfl, rfl⟩
  · rename_i hnone hread hunknown
    refine .fault h fun ha => ?_
    rcases ha with h | h
    · exact (hnone h).elim
    · exact (hread h).elim

theorem moves_saveResult (saved : Option Temp) (S : List Slot) :
    Moves E (.boxed :: S) (incDecValue.saveResult saved) fun _ S' => S' = .boxed :: S := by
  cases saved with
  | some t => exact moves_saveTo t S (Or.inl rfl)
  | none => exact .pure rfl

/-- The target is addressed twice, so that it can be read and then stored to. -/
theorem yields_incDec (hE : Tolerates E) (hcfg : cfg.registry = .standard)
    (h : Granted E (access = .none ∨ access = .read)) (increment post : Bool) {target : Expr}
    {A : List Slot} {code : Code Chunk} (ht : Stores E A code) (hl : Loads E A code)
    (hplace : Granted E (target.Serves E .updated)) :
    Yields E (access ≠ .none) (incDecValue cfg access increment post target code) := by
  intro S
  have hrest : ∀ saved : Option Temp, (access ≠ .none → saved.isSome = true) →
      Moves E (.boxed :: (A ++ S)) (do
        let _ ← code .store
        Pass.update State.endChain
        loadSaved saved) fun a S' =>
          S' = a.push S ∧ Granted E (access ≠ .none → a.isValue = true) := by
    intro saved hsaved
    refine (ht.store S).andThen fun _ => ?_
    refine (moves_endChain S).andThen fun _ => ?_
    exact moves_loadSaved saved hsaved S
  have hcall : Moves E (.boxed :: (A ++ S)) (callVoid (if increment then .increment else .decrement))
      fun _ S' => S' = .boxed :: (A ++ S) := by
    cases increment with
    | true => exact moves_call .increment _
    | false => exact moves_call .decrement _
  have hstep : ∀ saved : Option Temp, (access ≠ .none → saved.isSome = true) →
      Moves E (.boxed :: (A ++ S)) (do
        if post then incDecValue.saveResult saved
        callVoid (if increment then .increment else .decrement)
        if !post then incDecValue.saveResult saved
        let _ ← code .store
        Pass.update State.endChain
        loadSaved saved) fun a S' =>
          S' = a.push S ∧ Granted E (access ≠ .none → a.isValue = true) := by
    intro saved hsaved
    cases post with
    | true =>
      refine (moves_saveResult saved _).andThen fun _ => ?_
      exact hcall.andThen fun _ => hrest saved hsaved
    | false =>
      refine hcall.andThen fun _ => ?_
      exact (moves_saveResult saved _).andThen fun _ => hrest saved hsaved
  refine (moves_isPlace hcfg target S).bind ?_
  rintro _ T ⟨rfl, hT⟩
  rw [hT]
  split
  · rename_i hnot
    refine .fault hplace fun hs => hs.refused ?_
    simpa using hnot
  refine (moves_incDecUsed h S).bind ?_
  rintro used T ⟨hused, hT⟩
  rw [hT]
  refine (moves_beginChain false S).andThen fun _ => ?_
  refine (ht.prepare S).andThen fun _ => ?_
  refine (hl.prepare _).andThen fun _ => ?_
  refine (hl.load (A ++ S)).bind ?_
  rintro a _ ⟨rfl, ha⟩
  rw [← ha.push (A ++ S)]
  refine (moves_box (.mk ha.1) (A ++ S)).bind ?_
  rintro _ _ ⟨rfl, -⟩
  cases used with
  | true => exact (moves_declareTemp hE _).andThen fun t => hstep (some t) fun _ => rfl
  | false => exact hstep none fun hne => nomatch hused hne

/-! ## Arrays and destructurings -/

theorem moves_storePlain (value : Expr) {code : Code Chunk} (h : Boxes E (boxed code))
    (S : List Slot) :
    Moves E (.boxed :: S) (storePlain value code) fun _ S' => S' = .boxed :: S := by
  refine (moves_dup .boxed S).andThen fun _ => ?_
  refine (moves_valueToStore value h _).andThen fun _ => ?_
  exact moves_call .append _

theorem moves_storeKeyed {keyCode : Code Chunk} (value : Expr) {code : Code Chunk}
    (hk : Boxes E (boxed keyCode)) (h : Boxes E (boxed code)) (S : List Slot) :
    Moves E (.boxed :: S) (storeKeyed keyCode value code) fun _ S' => S' = .boxed :: S := by
  refine (moves_dup .boxed S).andThen fun _ => ?_
  refine (hk _).bind ?_
  rintro _ _ ⟨rfl, -⟩
  refine (moves_valueToStore value h _).andThen fun _ => ?_
  exact moves_call .setItem _

theorem yields_array (home : Home ExprKind) {storeElements : Emit Chunk Unit}
    (h : ∀ S, Moves E (.boxed :: S) storeElements fun _ S' => S' = .boxed :: S) :
    Yields E (access ≠ .none) (arrayValue access home storeElements) := by
  intro S
  refine Moves.andThen (T := S) (.peek fun _ => rfl) fun keys => ?_
  refine (moves_load (.newArray keys.integers keys.others) S rfl nofun (fun _ => rfl) rfl nofun).andThen
    fun _ => ?_
  refine (h S).andThen fun _ => ?_
  exact moves_unlessDropped access .arrayHandle rfl S

/-- An element of the array on top comes to lie on it. -/
theorem moves_fetch (hE : Tolerates E) (index : Nat) (S : List Slot) :
    Moves E (.boxed :: S) (fetch index) fun _ S' => S' = .boxed :: .boxed :: S := by
  refine (moves_dup .boxed S).andThen fun _ => ?_
  refine (moves_pushLiteral hE _ _).bind ?_
  rintro a _ ⟨rfl, rfl⟩
  refine (moves_box (.mk (TypeCode.isValue_ofLiteral _)) _).bind ?_
  rintro _ _ ⟨rfl, -⟩
  exact moves_call .getItemQuiet _

theorem moves_assignElement (hE : Tolerates E) (index : Nat) {A : List Slot} {target : Code Chunk}
    (h : Stores E A target) (S : List Slot) :
    Moves E (.boxed :: S) (assignElement index target) fun _ S' => S' = .boxed :: S := by
  refine (moves_fetch hE index S).andThen fun _ => ?_
  refine (moves_call .deepCopy _).andThen fun _ => ?_
  refine (moves_declareTemp hE _).andThen fun t => ?_
  refine (moves_storeTemp t _ (Or.inl rfl)).andThen fun _ => ?_
  refine (moves_beginChain false _).andThen fun _ => ?_
  refine (h.prepare _).andThen fun _ => ?_
  refine (moves_loadTemp t _).andThen fun _ => ?_
  refine (h.store _).andThen fun _ => ?_
  refine (moves_endChain _).andThen fun _ => ?_
  exact moves_returnTemp t _

theorem moves_assignNull (hE : Tolerates E) {A : List Slot} {target : Code Chunk}
    (h : Stores E A target) (S : List Slot) :
    Moves E S (assignNull target) fun _ S' => S' = S := by
  refine (moves_beginChain false _).andThen fun _ => ?_
  refine (h.prepare _).andThen fun _ => ?_
  refine (moves_pushLiteral hE .null _).bind ?_
  rintro _ _ ⟨rfl, rfl⟩
  refine (h.store _).andThen fun _ => ?_
  exact moves_endChain _

/-- Whichever way a destructuring takes, the value is gone afterwards. -/
theorem moves_unpack {assignElements assignNulls : Emit Chunk Unit}
    (he : ∀ S, Moves E (.boxed :: S) assignElements fun _ S' => S' = .boxed :: S)
    (hn : ∀ S, Moves E S assignNulls fun _ S' => S' = S) (S : List Slot) :
    Moves E (.boxed :: S) (unpack assignElements assignNulls) fun _ S' => S' = S := by
  intro c s hs
  have hin := hs.loopsIn
  refine (hs.defineLabel (.boxed :: S)).bind ?_
  rintro notArray s ⟨hs, -⟩
  refine (hs.defineLabel S).bind ?_
  rintro done s ⟨hs, -⟩
  refine ((moves_dup .boxed S).ends hs).bind fun _ s hs => ?_
  refine ((moves_call .isArrayLike _).ends hs).bind fun _ s hs => ?_
  refine (hs.emitBranchIf (Or.inl rfl) (List.mem_cons_of_mem _ List.mem_cons_self)).bind
    fun _ s hs => ?_
  refine ((he S).ends hs).bind fun _ s hs => ?_
  refine ((moves_pop .boxed S).ends hs).bind fun _ s hs => ?_
  refine (hs.emitBranch List.mem_cons_self (.boxed :: S)).bind fun _ s hs => ?_
  refine (hs.swap.markLast (hin.cons done)).bind fun _ s hs => ?_
  refine ((moves_pop .boxed S).ends hs).bind fun _ s hs => ?_
  refine ((hn S).ends hs).bind fun _ s hs => ?_
  exact (hs.markLast hin).mono fun _ t ht => ⟨S, rfl, ht⟩

theorem yields_list {value : Code Chunk} {unpacked : Emit Chunk Unit} (hv : Boxes E (boxed value))
    (hu : ∀ S, Moves E (.boxed :: S) unpacked fun _ S' => S' = S) :
    Yields E (access ≠ .none) (listValue access value unpacked) := by
  intro S
  refine (hv S).bind ?_
  rintro _ _ ⟨rfl, -⟩
  by_cases hnone : access = .none
  · simp only [hnone, ne_eq, not_true_eq_false, if_false, if_true]
    refine (hu S).andThen fun _ => ?_
    exact .pure ⟨rfl, .mk fun hne => hne.elim⟩
  · simp only [ne_eq, hnone, not_false_eq_true, if_true, if_false]
    refine (moves_dup .boxed S).andThen fun _ => ?_
    refine (hu _).andThen fun _ => ?_
    exact .pure ⟨rfl, .mk fun _ => rfl⟩

end Lowering
end PhpLowering
