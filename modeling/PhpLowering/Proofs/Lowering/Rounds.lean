import Mathlib.Data.List.Nodup
import PhpLowering.Proofs.Lowering.Account

/-!
# The account of an expression

An expression is emitted once as a rule, and twice if it is in a location that is addressed twice.
`Expr.account` is what the emission adds up to in either round, and `tells_lower` says that this is
right for every expression and every use that is made of it: provided that no two nodes have the
same number, the calls that are emitted are those of `Expr.invoked`, and everything that is stored
to is a location.

A location of an assignment, an increment or a destructuring is addressed in a chain of its own, so
nothing is known in it at first and nothing that is kept in it is seen outside (`Makes.inChain`).
-/

namespace PhpLowering

open Lowering (Account)

/-- An account of something that is evaluated in a round. -/
def Lowering.Account.of (numbers operands : List Nat) (calls : List Invocation) (written : List Expr) :
    Expr.Round → Account
  | .first => { fresh := numbers, gained := operands, calls, places := written }
  | .again => { known := operands, calls }

namespace Expr

/-- What the emission of an expression in a round adds up to. -/
def account (round : Round) (e : Expr) : Account :=
  .of e.numbers e.operands (e.invoked round) e.written round

/-- What the emission of expressions in a row adds up to. -/
def accountOf (round : Round) (es : List Expr) : Account :=
  .of (numbersOf es) (operandsOf es) (invokedAll round es) (writtenOf es) round

/-- What the emission of the elements of an array literal adds up to. -/
def accountOfElements (round : Round) (es : List ArrayElement) : Account :=
  .of (numbersOfElements es) (operandsOfElements es) (invokedElements round es)
    (writtenOfElements es) round

end Expr

namespace Lowering

open Pass (Ends)
open Expr (Round)

variable {α β : Type} {s t u : State Chunk} {A B C : Account} {round : Round}

/-! ## Codes -/

/-- What a use of an expression adds up to: the halves that follow the addressing one have nothing of
the expression in them, and what is addressed is a location. -/
def Account.forUse (A : Account) (e : Expr) : Use → Account
  | .load | .store => {}
  | .value | .arrayForWrite | .containerRead => A
  | .prepare _ | .loadRef | .unset => { A with places := e :: A.places }

/-- Every use of a code adds up to what is expected. -/
def Tells (A : Account) (e : Expr) (code : Code Chunk) : Prop :=
  ∀ use, Makes (A.forUse e use) (code use)

section Codes

variable {e c : Expr} {code container : Code Chunk} {key : Emit Chunk TypeCode}

theorem Makes.place {x : Emit Chunk α} (h : Makes A x) (he : e.isPlace = true) :
    Makes { A with places := e :: A.places } x := by
  intro s hs
  refine (h s ⟨hs.fresh, hs.known⟩).mono fun _ t ht => ?_
  exact { ht with places := List.forall_mem_cons.mpr ⟨he, ht.places⟩ }

/-- That something is a location need not be said. -/
theorem Makes.forget {x : Emit Chunk α} (h : Makes { A with places := e :: A.places } x) : Makes A x :=
  h.mono ⟨List.Subset.refl _, List.Subset.refl _, List.Subset.refl _, rfl, List.subset_cons_self _ _⟩

theorem Tells.mono (h : Tells A e code) (hAB : A.Covers B) : Tells B e code := by
  obtain ⟨hfresh, hknown, hgained, hcalls, hplaces⟩ := hAB
  intro use
  refine (h use).mono ?_
  cases use with
  | load | store => exact ⟨nofun, nofun, nofun, rfl, nofun⟩
  | value | arrayForWrite | containerRead => exact ⟨hfresh, hknown, hgained, hcalls, hplaces⟩
  | prepare _ | loadRef | unset =>
    exact ⟨hfresh, hknown, hgained, hcalls, List.cons_subset_cons _ hplaces⟩

theorem Tells.value (h : Tells A e code) : Makes A (code .value) := h .value

theorem Tells.boxed (h : Tells A e code) : Makes A (boxed code) :=
  h.value.behind

theorem Tells.converted (h : Tells A e code) (target : TypeCode) : Makes A (converted code target) :=
  h.value.behind

/-- An expression that is no location has only its value. -/
theorem tells_valueCode {value : Emit Chunk TypeCode} (h : Makes A value) (e : Expr) (kind : ExprKind) :
    Tells A e (valueCode kind value) := by
  intro use
  cases use with
  | value => exact h
  | arrayForWrite | containerRead => exact h.behind
  | prepare _ | load | store | loadRef | unset => exact .fault _

/-- A node whose rule is made for another kind is not emitted. -/
theorem makes_wrongRuleCode (rule kind : ExprKind) (access : Access) (use : Use) :
    Makes A (wrongRuleCode rule kind access use : Emit Chunk TypeCode) := by
  unfold wrongRuleCode
  cases use <;> dsimp only <;> (try split) <;> exact .fault _

theorem tells_byRule {cfg : Setting} {kind : ExprKind} {tag : ExprTag}
    {code : Home ExprKind → Code Chunk} (h : ∀ home, Tells A e (code home)) :
    Tells A e (byRule cfg kind tag code) := by
  intro use
  refine .before fun handle => ?_
  split
  · exact h _ use
  · exact makes_wrongRuleCode _ _ _ _

/-! ## Locations -/

/-- Every use of a location adds up to what is expected. -/
structure Place.Accounted (A : Account) (p : Place Chunk) : Prop where
  prepare : ∀ half, Makes A (p.prepare half)
  load : Makes {} p.load
  store : Makes {} p.store
  loadRef : Makes A p.loadRef
  arrayForWrite : Makes A p.arrayForWrite
  unset : Makes A p.unset

theorem Makes.then {x : Emit Chunk α} {f : α → Emit Chunk β} (hx : Makes A x)
    (hf : ∀ a, Makes {} (f a)) : Makes A (x >>= f) := by
  refine (hx.seq hf (List.disjoint_nil_right _)).mono ?_
  constructor <;> simp [Account.seq]

theorem Place.Accounted.tells {p : Place Chunk} (h : p.Accounted A) (he : e.isPlace = true)
    (kind : ExprKind) (access : Access) : Tells A e (p.code kind access) := by
  intro use
  cases use with
  | value =>
    unfold Place.code Place.value
    cases access with
    | read => exact (h.prepare _).then fun _ => h.load
    | readRef | readUnknown => exact h.loadRef
    | none => exact (h.prepare _).then fun _ => h.load.behind
    | _ => exact .fault _
  | prepare half => exact ((h.prepare half).behind).place he
  | load => exact h.load
  | store => exact h.store.behind
  | loadRef => exact h.loadRef.place he
  | arrayForWrite => exact h.arrayForWrite
  | containerRead => exact (h.prepare _).then fun _ => h.load
  | unset => exact (h.unset.behind).place he

theorem accounted_variablePlace (name : String) : (variablePlace name).Accounted {} := by
  constructor <;> intros <;> unfold variablePlace <;> dsimp only <;> exact .silent

theorem accounted_itemPlace (hcontainer : Tells A c container) (hkey : Makes B key)
    (hd : A.fresh.Disjoint B.fresh) : (itemPlace container key).Accounted (A.seq B) := by
  have hprepare : ∀ half, Makes (A.seq B) (itemPlace.prepare container key half) := by
    intro half
    cases half with
    | write => exact (hcontainer .arrayForWrite).seq (fun _ => hkey.behind) hd
    | read => exact (hcontainer .containerRead).seq (fun _ => hkey.behind) hd
  exact
    { prepare := hprepare
      load := .before fun _ => .silent
      store := .silent (x := callVoid _)
      loadRef := (hprepare .write).behind
      arrayForWrite := (hprepare .write).behind
      unset := (hprepare .read).behind }

theorem accounted_appendPlace (hcontainer : Tells A c container) :
    (appendPlace container).Accounted A := by
  have hprepare : Makes A (appendPlace.prepareWrite container) := (hcontainer .arrayForWrite).behind
  exact
    { prepare := fun half => by
        cases half with
        | write => exact hprepare
        | read => exact .fault _
      load := .fault _
      store := .silent (x := callVoid _)
      loadRef := hprepare.behind
      arrayForWrite := hprepare.behind
      unset := .fault _ }

end Codes

/-! ## Chains -/

section Chains

variable {e : Expr} {code : Code Chunk}

theorem mem_kept_of_lookup {chain : Chain} {chains : List Chain} (hs : s.chains = chain :: chains)
    {i : Nat} {entry : Temp × TypeCode} (h : chain.kept.lookup i = some entry) : i ∈ s.kept := by
  unfold State.kept
  rw [hs]
  obtain ⟨kept, kept', heq, -⟩ := List.lookup_eq_some_iff.mp h
  simp [heq]

theorem exists_lookup_of_mem_kept {i : Nat} (h : i ∈ s.kept) :
    ∃ chain chains entry, s.chains = chain :: chains ∧ chain.kept.lookup i = some entry := by
  unfold State.kept at h
  split at h
  · cases h
  · rename_i chain chains hs
    cases hlookup : chain.kept.lookup i with
    | some entry => exact ⟨chain, chains, entry, hs, hlookup⟩
    | none =>
      rw [List.lookup_eq_none_iff] at hlookup
      obtain ⟨entry, hentry, rfl⟩ := List.mem_map.mp h
      exact absurd (hlookup entry hentry) (by simp)

/-- An operand is kept along with the others. -/
theorem done_keepOperand (i : Nat) (k : Temp) (kind : TypeCode) (s : State Chunk) :
    Account.Done { fresh := [i], gained := [i] } s (s.keepOperand i k kind) := by
  unfold State.keepOperand
  split
  · rename_i hs
    exact
      { depth := rfl, outer := rfl, keeps := fun _ hi => hi, kept := fun _ hi => Or.inl hi
        gained := fun hne => absurd hs hne, calls := .of_eq rfl, places := List.forall_mem_nil _ }
  · rename_i chain chains hs
    refine
      { depth := by rw [hs]; rfl
        outer := by rw [hs]; rfl
        keeps := ?_, kept := ?_, gained := ?_, calls := .of_eq rfl, places := List.forall_mem_nil _ }
    · intro j hj
      unfold State.kept at hj ⊢
      rw [hs] at hj
      by_cases hji : j = i
      · simp [hji]
      · obtain ⟨entry, hentry, rfl⟩ := List.mem_map.mp hj
        simp only [List.map_append, List.mem_append, List.mem_map, List.mem_filter]
        exact Or.inl ⟨entry, ⟨hentry, by simpa using hji⟩, rfl⟩
    · intro j hj
      unfold State.kept at hj ⊢
      rw [hs]
      simp only [List.map_append, List.mem_append, List.mem_map, List.mem_filter, List.mem_singleton,
        List.map_cons, List.map_nil] at hj ⊢
      exact hj.imp_left (Exists.imp fun _ h => ⟨h.1.1, h.2⟩)
    · intro _ j hj
      unfold State.kept
      simp [List.mem_singleton.mp hj]

/-- What the operand of a chain adds up to: in the second round it is there. -/
def Account.ofOperand (e : Expr) (round : Round) : Account :=
  .of e.numbers (if e.isRepeatable then [] else [e.id]) (if round = .first then e.invoked .first else [])
    e.written round

/-- What may be evaluated twice makes no calls and keeps nothing. -/
theorem covers_ofOperand (h : e.isRepeatable = true) :
    (e.account round).Covers (Account.ofOperand e round) := by
  cases e with
  | literal | var =>
    cases round <;> exact ⟨List.Subset.refl _, List.Subset.refl _, List.Subset.refl _, rfl,
      List.Subset.refl _⟩
  | _ => exact nomatch h

/-- The operand of a chain is evaluated in the first round. -/
theorem makes_chainOperand_first (h : Tells (e.account .first) e code) :
    Makes (Account.ofOperand e .first) (chainOperand e code) := by
  intro s hs
  refine .peek_bind ?_
  have hboxed := h.boxed s ⟨hs.fresh, nofun⟩
  cases hchains : s.chains with
  | nil => exact hboxed.mono fun _ t ht => { ht with gained := fun hne => absurd hchains hne }
  | cons chain chains =>
    dsimp only [List.head?_cons]
    split
    · rename_i hrepeatable
      exact hboxed.mono fun _ _ => (covers_ofOperand hrepeatable).done
    · rename_i hrepeatable
      have hmem := Expr.id_mem_numbers (Bool.not_eq_true _ ▸ hrepeatable)
      split
      · -- It cannot be there already, because its number is new.
        rename_i hlookup
        exact absurd (mem_kept_of_lookup hchains hlookup) (hs.fresh _ hmem)
      · refine hboxed.bind fun kind t ht => ?_
        refine (silent_declareTemp.ends t).bind fun k t₁ ⟨hc₁, hcalls₁⟩ => ?_
        refine ((silent_saveTo k).ends t₁).bind fun _ t₂ ⟨hc₂, hcalls₂⟩ => ?_
        refine .update_bind (.pure ?_)
        have hquiet := Account.done_of_chains (hc₂.trans hc₁) (hcalls₁.trans hcalls₂)
        refine Account.Covers.done ?_ ((ht.trans hquiet).trans (done_keepOperand e.id k kind t₂))
        constructor
        case fresh => simpa [Account.seq, Account.ofOperand, Account.of, Expr.account] using hmem
        all_goals simp [Account.seq, Account.ofOperand, Account.of, Expr.account, hrepeatable]

/-- The operand of a chain is there in the second round. -/
theorem makes_chainOperand_again (h : Tells (e.account .again) e code) :
    Makes (Account.ofOperand e .again) (chainOperand e code) := by
  intro s hs
  refine .peek_bind ?_
  by_cases hrepeatable : e.isRepeatable = true
  · have hboxed := (h.boxed.mono (covers_ofOperand hrepeatable)) s hs
    cases s.chains.head? with
    | none => exact hboxed
    | some chain =>
      dsimp only
      rwa [if_pos hrepeatable]
  · have hknown : e.id ∈ s.kept :=
      hs.known e.id (by simp [Account.ofOperand, Account.of, hrepeatable])
    obtain ⟨chain, chains, entry, hchains, hlookup⟩ := exists_lookup_of_mem_kept hknown
    rw [hchains]
    dsimp only [List.head?_cons]
    rw [if_neg hrepeatable, hlookup]
    refine ((Makes.silent (x := do emit (.loadTemp entry.1); return entry.2)) s
      ⟨List.forall_mem_nil _, List.forall_mem_nil _⟩).mono ?_
    exact fun _ _ => Account.Covers.done
      ⟨List.nil_subset _, List.nil_subset _, List.nil_subset _, rfl, List.nil_subset _⟩

/-- **The operand of a chain is evaluated in the first round, and only then.** -/
theorem makes_chainOperand (h : Tells (e.account round) e code) :
    Makes (Account.ofOperand e round) (chainOperand e code) := by
  cases round with
  | first => exact makes_chainOperand_first h
  | again => exact makes_chainOperand_again h

/-! ### A chain of its own -/

/-- What is seen of a chain from outside: its calls, and what it shows to be a location. -/
def Account.closed (A : Account) : Account :=
  { calls := A.calls, places := A.places }

theorem chains_endChain {chain : Chain} {chains : List Chain} (h : s.chains = chain :: chains) :
    s.endChain.chains = chains := by
  unfold State.endChain
  rw [h]

theorem code_returnTemps (slots : List Temp) (c : Chunk) :
    (slots.foldl (fun k t => Sink.returnTemp t k) c).active.code = c.active.code := by
  induction slots generalizing c with
  | nil => rfl
  | cons t rest ih =>
    rw [List.foldl_cons, ih, active_returnTemp, code_returnTemp]

theorem code_endChain (s : State Chunk) : s.endChain.active.code = s.active.code := by
  unfold State.endChain
  split
  · rfl
  · exact code_returnTemps _ s.sink

/-- A step is right at the beginning of a chain. -/
def Enters (A : Account) (x : Emit Chunk α) : Prop :=
  ∀ s, s.chains ≠ [] → s.kept = [] → Ends x s (fun _ t => A.Done s t) anyFailure

theorem Makes.enters {x : Emit Chunk α} (h : Makes A x) (hA : A.known = []) : Enters A x :=
  fun s _ hkept => h s ⟨by rw [hkept]; nofun, by rw [hA]; nofun⟩

/-- **What is done in a chain of its own is not noticed outside.** -/
theorem Enters.inChain {x : Emit Chunk α} {f : α → Emit Chunk β} (quiet : Bool) (hx : Enters A x)
    [hf : ∀ a, Silent (f a)] :
    Makes A.closed (do
      beginChain quiet
      let a ← x
      Pass.update State.endChain
      f a) := by
  intro s _
  refine .update_bind ?_
  refine (hx _ (List.cons_ne_nil _ _) rfl).bind fun a t ht => ?_
  refine .update_bind ?_
  obtain ⟨chain, chains, hchains⟩ : ∃ chain chains, t.chains = chain :: chains :=
    List.exists_cons_of_length_pos (by rw [ht.depth]; exact Nat.succ_pos _)
  have hends : t.endChain.chains = s.chains := by
    rw [chains_endChain hchains]
    have houter := ht.outer
    rwa [hchains] at houter
  refine ((hf a).ends _).mono fun _ u ⟨hu, hcalls⟩ => ?_
  have hclosed : Calls t t.endChain [] := .of_eq (code_endChain t)
  have hall := (ht.calls.trans hclosed).trans hcalls
  rw [List.append_nil, List.append_nil] at hall
  exact { Account.done_of_chains (hu.trans hends) hall with places := ht.places }

end Chains

/-! ## Operators -/

theorem Account.disjoint_of {n n' o o' : List Nat} {c c' : List Invocation} {w w' : List Expr}
    (h : n.Disjoint n') :
    (Account.of n o c w round).fresh.Disjoint (Account.of n' o' c' w' round).fresh := by
  cases round with
  | first => exact h
  | again => exact List.disjoint_nil_left _

section Constructs

-- The instance for a silent function is a term with a node for every line of the function.
set_option synthInstance.maxSize 10000

variable {e l r c : Expr} {code left right condition ifTrue ifFalse target stored : Code Chunk}

theorem makes_binaryValue (access : Access) (op : BinaryOp) (hl : Tells A l left) (hr : Tells B r right)
    (hd : A.fresh.Disjoint B.fresh) : Makes (A.seq B) (binaryValue access op left right) :=
  hl.boxed.seq (fun _ => hr.boxed.behind) hd

theorem makes_unaryValue (access : Access) (op : UnaryOp) (h : Tells A e code) :
    Makes A (unaryValue access op code) := by
  have hresult : Makes A (unaryResult op code) := by
    cases op with
    | plus | minus | logicNot | bitNot | clone | print => exact h.boxed.behind
    | intCast | doubleCast | stringCast | binaryCast | boolCast => exact h.converted _
    | unsetCast => exact h.value.behind
    | silence => exact h.value
  unfold unaryValue
  split
  · exact .before fun _ => h.value.behind
  · exact hresult.behind

/-- A literal makes no calls and keeps nothing. -/
theorem covers_literal {v : Literal} (h : e.value? = some v) : Account.Covers {} (e.account round) := by
  cases e with
  | literal => cases round <;> exact ⟨nofun, nofun, nofun, rfl, nofun⟩
  | _ => exact nomatch h

theorem makes_concatOperand (h : Tells (e.account round) e code) :
    Makes (e.account round) (concatOperand e code) := by
  unfold concatOperand
  split
  · rename_i v hv
    exact Makes.mono .silent (covers_literal hv)
  · refine h.value.then fun kind => ?_
    split
    · exact .silent
    · exact .silent
    · exact .silent

theorem makes_concatSingle (h : Tells (e.account round) e code) :
    Makes (e.account round) (concatSingle e code) := by
  unfold concatSingle
  split
  · rename_i v hv
    exact Makes.mono .silent (covers_literal hv)
  · exact h.value.behind

theorem makes_branchValue (used : Bool) (h : Tells A e code) : Makes A (branchValue used code) :=
  h.value.behind

theorem makes_conditionalValue (access : Access) (hc : Tells A c condition) (hl : Tells B l ifTrue)
    (hr : Tells C r ifFalse) (hAB : A.fresh.Disjoint B.fresh)
    (hABC : (A.fresh ++ B.fresh).Disjoint C.fresh) :
    Makes ((A.seq B).seq C) (conditionalValue access condition ifTrue ifFalse) := by
  have hboth : Makes (A.seq B) (do
      let done ← defineLabel
      let otherwise ← defineLabel
      let _ ← converted condition .boolean
      emit (.branchIfFalse otherwise)
      branchValue (access ≠ .none) ifTrue
      emit (.branch done)
      mark otherwise
      return done) :=
    .before fun _ => .before fun _ => (hc.converted _).seq
      (fun _ => .before fun _ => (makes_branchValue _ hl).behind) hAB
  have hall := hboth.seq (fun done => (makes_branchValue (access ≠ .none) hr).behind
    (f := fun _ => do mark done; return conditionalResult access)) hABC
  simpa only [conditionalValue, bind_assoc, pure_bind] using hall

theorem makes_shortcutValue (access : Access) (hc : Tells A c condition) (hr : Tells B r ifFalse)
    (hd : A.fresh.Disjoint B.fresh) : Makes (A.seq B) (shortcutValue access condition ifFalse) := by
  refine .before fun done => ?_
  dsimp only
  split
  · refine hc.boxed.seq (fun _ => .before fun _ => .before fun _ => .before fun _ => .before fun _ => ?_) hd
    exact (makes_branchValue _ hr).behind
  · refine (hc.converted _).seq (fun _ => .before fun _ => ?_) hd
    exact (makes_branchValue _ hr).behind

/-! ## Operands and arguments -/

/-- Every code adds up to what is expected of its expression. -/
def AllTell (round : Round) (operands : List (Expr × Code Chunk)) : Prop :=
  ∀ o ∈ operands, Tells (o.1.account round) o.1 o.2

theorem accountOf_cons (e : Expr) (es : List Expr) :
    Expr.accountOf round (e :: es) = (e.account round).seq (Expr.accountOf round es) := by
  cases round <;> simp [Expr.accountOf, Expr.account, Account.of, Account.seq, Expr.operandsOf,
    Expr.invokedAll]

theorem accountOf_nil : Expr.accountOf round [] = {} := by
  cases round <;> rfl

/-- Steps in a row, one for every expression. -/
theorem makes_cons {x : Emit Chunk α} {f : α → Emit Chunk β} {es : List Expr}
    (hx : Makes (e.account round) x) (hf : ∀ a, Makes (Expr.accountOf round es) (f a))
    (hd : e.numbers.Disjoint (Expr.numbersOf es)) : Makes (Expr.accountOf round (e :: es)) (x >>= f) := by
  rw [accountOf_cons]
  exact hx.seq hf (Account.disjoint_of hd)

theorem makes_pushBoxed {operands : List (Expr × Code Chunk)} (h : AllTell round operands)
    (hnodup : (Expr.numbersOf (operands.map Prod.fst)).Nodup) :
    Makes (Expr.accountOf round (operands.map Prod.fst)) (pushBoxed operands) := by
  induction operands with
  | nil =>
    rw [List.map_nil, accountOf_nil]
    exact .silent (x := pure ())
  | cons o rest ih =>
    obtain ⟨ho, hrest⟩ := List.forall_mem_cons.mp h
    rw [List.map_cons, Expr.numbersOf_cons, List.nodup_append'] at hnodup
    exact makes_cons ho.boxed (fun _ => ih hrest hnodup.2.1) hnodup.2.2

theorem makes_pushArguments {args : List (Expr × Code Chunk)} (h : AllTell round args)
    (hnodup : (Expr.numbersOf (args.map Prod.fst)).Nodup) :
    Makes (Expr.accountOf round (args.map Prod.fst)) (pushArguments args) := by
  induction args with
  | nil =>
    rw [List.map_nil, accountOf_nil]
    exact .silent (x := pure ())
  | cons arg rest ih =>
    obtain ⟨harg, hrest⟩ := List.forall_mem_cons.mp h
    rw [List.map_cons, Expr.numbersOf_cons, List.nodup_append'] at hnodup
    have hpush := ih hrest hnodup.2.1
    refine makes_cons harg.value (fun code => ?_) hnodup.2.2
    split
    · exact .before fun _ => hpush
    · exact hpush

theorem makes_concatValue (access : Access) {operands : List (Expr × Code Chunk)}
    (h : AllTell round operands) (hnodup : (Expr.numbersOf (operands.map Prod.fst)).Nodup) :
    Makes (Expr.accountOf round (operands.map Prod.fst)) (concatValue access operands) := by
  have hresult : Makes (Expr.accountOf round (operands.map Prod.fst)) (concatResult operands) := by
    unfold concatResult
    split
    · rw [List.map_nil, accountOf_nil]
      exact .silent
    · have hcode := makes_concatSingle (h _ List.mem_cons_self)
      have hnil : ∀ a, Makes (Expr.accountOf round []) (return a : Emit Chunk TypeCode) :=
        fun _ => accountOf_nil ▸ Makes.silent
      have hall := makes_cons hcode hnil (List.disjoint_nil_right _)
      rwa [bind_pure] at hall
    · have hleft := makes_concatOperand (h _ List.mem_cons_self)
      have hright := makes_concatOperand (h _ (List.mem_cons_of_mem _ List.mem_cons_self))
      simp only [List.map_cons, List.map_nil, Expr.numbersOf_cons, List.nodup_append'] at hnodup
      refine makes_cons hleft (fun a => ?_) (by simpa using hnodup.2.2)
      exact makes_cons hright (fun b => accountOf_nil ▸ Makes.silent) (List.disjoint_nil_right _)
    · split
      · exact (makes_pushBoxed h hnodup).behind
      · exact .fail _
  exact hresult.behind

/-- A call instruction makes a call. -/
theorem makes_callFunction (name : String) (n : Nat) :
    Makes { calls := [⟨name, n⟩] } (emit (.callFunction name n)) := by
  intro s _
  refine (ends_emit _ s).mono ?_
  rintro _ _ rfl
  exact Account.done_of_chains rfl (calls_push (.callFunction name n) s)

theorem makes_callValue (access : Access) (name : String) {args : List (Expr × Code Chunk)}
    (h : AllTell round args) (hnodup : (Expr.numbersOf (args.map Prod.fst)).Nodup) :
    Makes ((Expr.accountOf round (args.map Prod.fst)).seq { calls := [⟨name, args.length⟩] })
      (callValue access name args) := by
  unfold callValue
  split
  · exact (makes_pushArguments h hnodup).seq (fun _ => (makes_callFunction name _).behind)
      (List.disjoint_nil_right _)
  · exact .fail _

/-! ## Assignments -/

theorem makes_valueToStore (h : Tells A e code) : Makes A (valueToStore e code) :=
  h.boxed.behind

/-- Keeps the value on top of the stack in a slot if it is used afterwards. -/
def saveUsed (access : Access) : Emit Chunk (Option Temp) :=
  if access = .none then return none
  else do
    let t ← declareTemp
    saveTo t
    return some t

instance silent_saveUsed (access : Access) : Silent (saveUsed access) := by
  unfold saveUsed
  infer_instance

/-- An assignment as a piece of work in a chain of its own. -/
theorem assignValue_eq (access : Access) (target : Code Chunk) (value : Expr) (code : Code Chunk) :
    assignValue access target value code = (do
      beginChain false
      let saved ← (do
        let _ ← target (.prepare .write)
        valueToStore value code
        let saved ← saveUsed access
        let _ ← target .store
        return saved)
      Pass.update State.endChain
      loadSaved saved) := by
  by_cases h : access = .none <;> simp [assignValue, saveUsed, h]

theorem makes_assignValue (access : Access) (ht : Tells A e target) (hv : Tells B c stored)
    (hA : A.known = []) (hB : B.known = []) (hd : A.fresh.Disjoint B.fresh) :
    Makes { calls := A.calls ++ B.calls, places := e :: (A.places ++ B.places) }
      (assignValue access target c stored) := by
  rw [assignValue_eq]
  refine (Makes.seq (B := B) (ht (.prepare .write)) (fun _ => ?_) hd).enters ?_ |>.inChain false
  · exact (makes_valueToStore hv).then fun _ => .before fun _ => (ht .store).behind
  · simp [Account.seq, Account.forUse, hA, hB]

/-- A slot for the value of an increment, if it is used. -/
def resultSlot (used : Bool) : Emit Chunk (Option Temp) :=
  if used then return some (← declareTemp) else return none

/-- Changes the value on top of the stack, and keeps it before or after that. -/
def changeValue (increment post : Bool) (saved : Option Temp) : Emit Chunk Unit := do
  if post then incDecValue.saveResult saved
  callVoid (if increment then .increment else .decrement)
  if !post then incDecValue.saveResult saved

instance silent_resultSlot (used : Bool) : Silent (resultSlot used) := by
  unfold resultSlot
  infer_instance

instance silent_changeValue (increment post : Bool) (saved : Option Temp) :
    Silent (changeValue increment post saved) := by
  unfold changeValue
  infer_instance

/-- An increment as a piece of work in a chain of its own. -/
theorem incDecValue_eq (cfg : Setting) (access : Access) (increment post : Bool) (e : Expr)
    (target : Code Chunk) :
    incDecValue cfg access increment post e target = (do
      if !(← isPlace cfg e) then fault (.notAPlace (.expr e.kind))
      else
        let used ← incDecUsed access
        beginChain false
        let saved ← (do
          let _ ← target (.prepare .write)
          let _ ← target (.prepare .read)
          let code ← target .load
          let _ ← box code
          let saved ← resultSlot used
          changeValue increment post saved
          let _ ← target .store
          return saved)
        Pass.update State.endChain
        loadSaved saved) := by
  unfold incDecValue
  congr 1
  funext isPlace
  split
  · rfl
  · congr 1
    funext used
    cases used <;> cases post <;> simp [resultSlot, changeValue]

/-- **The location of an increment is addressed in two rounds.** -/
theorem makes_incDecValue (cfg : Setting) (access : Access) (increment post : Bool)
    (hfirst : Tells (e.account .first) e target) (hagain : Tells (e.account .again) e target) :
    Makes { calls := e.invoked .first ++ e.invoked .again, places := e :: e.written }
      (incDecValue cfg access increment post e target) := by
  rw [incDecValue_eq]
  refine .before fun isPlace => ?_
  split
  · exact .fault _
  · refine .before fun used => ?_
    have henters : Enters (({ e.account .first with places := e :: e.written } : Account).seq
        { e.account .again with known := [] }) (do
          let _ ← target (.prepare .write)
          let _ ← target (.prepare .read)
          let code ← target .load
          let _ ← box code
          let saved ← resultSlot used
          changeValue increment post saved
          let _ ← target .store
          return saved) := by
      intro s hs hkept
      refine (hfirst (.prepare .write) s ⟨by rw [hkept]; nofun, nofun⟩).bind fun _ t ht => ?_
      -- What the second round takes to be there has been kept in the first one.
      have hrest := (hagain (.prepare .read)).forget.then fun _ =>
        (hagain .load).then fun code => .before (x := box code) fun _ =>
        .before (x := resultSlot used) fun saved => .before (x := changeValue increment post saved)
        fun _ => (hagain .store).behind (f := fun _ => pure saved)
      refine (hrest t ⟨nofun, ht.gained hs⟩).mono fun _ u hu => ?_
      exact ht.trans ⟨hu.depth, hu.outer, hu.keeps, hu.kept, hu.gained, hu.calls, hu.places⟩
    refine (henters.inChain false).mono ?_
    constructor <;> simp [Account.closed, Account.seq, Expr.account, Account.of]

theorem makes_storePlain (h : Tells A e stored) : Makes A (storePlain e stored) :=
  .before fun _ => (makes_valueToStore h).behind

theorem makes_storeKeyed (hk : Tells A c code) (hv : Tells B e stored) (hd : A.fresh.Disjoint B.fresh) :
    Makes (A.seq B) (storeKeyed code e stored) :=
  .before fun _ => hk.boxed.seq (fun _ => (makes_valueToStore hv).behind) hd

theorem makes_arrayValue (access : Access) (home : Home ExprKind) {elements : Emit Chunk Unit}
    (h : Makes A elements) : Makes A (arrayValue access home elements) :=
  .before fun _ => .before fun _ => h.behind

/-! ## Destructurings -/

theorem makes_assignElement (index : Nat) (h : Tells A e target) (hA : A.known = []) :
    Makes { calls := A.calls, places := e :: A.places } (assignElement index target) := by
  refine .before fun _ => .before fun _ => .before fun t => .before fun _ => ?_
  have hstore := ((h (.prepare .write)).then fun _ => .before (x := emit (.loadTemp t)) fun _ => h .store)
  have hchain := (hstore.enters hA).inChain false (f := fun _ => returnTemp t)
  simp only [bind_assoc] at hchain
  exact hchain

theorem makes_assignNull (h : Tells A e target) (hA : A.known = []) :
    Makes { calls := A.calls, places := e :: A.places } (assignNull target) := by
  have hstore := ((h (.prepare .write)).then fun _ => .before (x := pushLiteral .null) fun _ => h .store)
  have hchain := (hstore.enters hA).inChain false (f := fun _ => pure ())
  simp only [bind_assoc, bind_pure_unit] at hchain
  exact hchain

theorem makes_unpack {elements nulls : Emit Chunk Unit} (he : Makes A elements) (hn : Makes B nulls)
    (hd : A.fresh.Disjoint B.fresh) : Makes (A.seq B) (unpack elements nulls) := by
  refine .before fun _ => .before fun _ => .before fun _ => .before fun _ => .before fun _ => ?_
  refine he.seq (fun _ => .before fun _ => .before fun _ => .before fun _ => .before fun _ => ?_) hd
  exact hn.behind

theorem makes_listValue (access : Access) (hv : Tells A e code) {unpacked : Emit Chunk Unit}
    (hu : Makes B unpacked) (hd : A.fresh.Disjoint B.fresh) :
    Makes (A.seq B) (listValue access code unpacked) := by
  refine hv.boxed.seq (fun _ => ?_) hd
  by_cases h : access = .none
  · rw [if_neg (not_not.mpr h)]
    exact hu.behind
  · rw [if_pos h]
    exact .before fun _ => hu.behind

end Constructs

/-! ## Expressions -/

/-- The account of a node is that of its parts, apart from its own number. -/
theorem Account.covers_cons {n o : List Nat} {c : List Invocation} {w : List Expr} (i : Nat) :
    (Account.of n o c w round).Covers (.of (i :: n) o c w round) := by
  cases round <;> constructor <;> simp [Account.of]

theorem Account.of_seq {n n' o o' : List Nat} {c c' : List Invocation} {w w' : List Expr} :
    (Account.of n o c w round).seq (.of n' o' c' w' round) =
      .of (n ++ n') (o ++ o') (c ++ c') (w ++ w') round := by
  cases round <;> rfl

theorem Account.Covers.empty {n : List Nat} : Account.Covers {} (.of n [] [] [] round) := by
  cases round <;> exact ⟨nofun, nofun, nofun, rfl, nofun⟩

variable (cfg : Setting)

mutual

/-- **Every use of an expression adds up to its account.** -/
theorem tells_lower : ∀ (e : Expr) (round : Round), e.numbers.Nodup →
    Tells (e.account round) e (lower cfg e)
  | .literal tag v, round, _ => by
    rw [lower]
    exact (tells_byRule fun _ => tells_valueCode .silent _ _).mono .empty
  | .constant tag name, round, _ => by
    rw [lower]
    exact (tells_byRule fun _ => tells_valueCode .silent _ _).mono .empty
  | .var tag name, round, _ => by
    rw [lower]
    exact (tells_byRule fun _ => (accounted_variablePlace name).tells rfl _ _).mono .empty
  | .item tag container index, round, h => by
    rw [Expr.numbers_item, List.nodup_cons, List.nodup_append'] at h
    obtain ⟨-, hcontainer, hindex, hd⟩ := h
    have hkey := makes_chainOperand (tells_lower index round hindex)
    rw [lower]
    refine (tells_byRule fun _ => (accounted_itemPlace (tells_lower container round hcontainer) hkey
      (Account.disjoint_of hd)).tells rfl _ _).mono ?_
    cases round <;> constructor <;>
      simp [Account.seq, Account.of, Account.ofOperand, Expr.account, Expr.operands, Expr.invoked]
  | .append tag container, round, h => by
    rw [Expr.numbers_append, List.nodup_cons] at h
    rw [lower]
    refine (tells_byRule fun _ => (accounted_appendPlace (tells_lower container round h.2)).tells rfl
      _ _).mono ?_
    simpa [Expr.account, Expr.operands, Expr.invoked] using Account.covers_cons tag.id
  | .array tag elements, round, h => by
    rw [Expr.numbers_array, List.nodup_cons] at h
    rw [lower]
    refine (tells_byRule fun _ => tells_valueCode (makes_arrayValue _ _
      (makes_storeElements elements round h.2)) _ _).mono ?_
    simpa [Expr.account, Expr.accountOfElements, Expr.operands, Expr.invoked] using
      Account.covers_cons tag.id
  | .concat tag operands, round, h => by
    rw [Expr.numbers_concat, List.nodup_cons] at h
    have hvalue := makes_concatValue tag.access (allTell_lowerAll operands round h.2)
      (by rw [map_lowerAll]; exact h.2)
    rw [map_lowerAll] at hvalue
    rw [lower]
    refine (tells_byRule fun _ => tells_valueCode hvalue _ _).mono ?_
    simpa [Expr.account, Expr.accountOf, Expr.operands, Expr.invoked] using Account.covers_cons tag.id
  | .call tag name args, round, h => by
    rw [Expr.numbers_call, List.nodup_cons] at h
    have hvalue := makes_callValue tag.access name (allTell_lowerAll args round h.2)
      (by rw [map_lowerAll]; exact h.2)
    rw [map_lowerAll, length_lowerAll] at hvalue
    rw [lower]
    refine (tells_byRule fun _ => tells_valueCode hvalue _ _).mono ?_
    cases round <;> constructor <;>
      simp [Account.seq, Account.of, Expr.account, Expr.accountOf, Expr.operands, Expr.invoked]
  | .binary tag op left right, round, h => by
    rw [Expr.numbers_binary, List.nodup_cons, List.nodup_append'] at h
    obtain ⟨-, hleft, hright, hd⟩ := h
    rw [lower]
    refine (tells_byRule fun _ => tells_valueCode (makes_binaryValue _ _ (tells_lower left round hleft)
      (tells_lower right round hright) (Account.disjoint_of hd)) _ _).mono ?_
    simpa [Expr.account, Account.of_seq, Expr.operands, Expr.invoked] using Account.covers_cons tag.id
  | .unary tag op operand, round, h => by
    rw [Expr.numbers_unary, List.nodup_cons] at h
    rw [lower]
    refine (tells_byRule fun _ => tells_valueCode (makes_unaryValue _ _
      (tells_lower operand round h.2)) _ _).mono ?_
    simpa [Expr.account, Expr.operands, Expr.invoked] using Account.covers_cons tag.id
  | .incDec tag increment post target, round, h => by
    rw [Expr.numbers_incDec, List.nodup_cons] at h
    rw [lower]
    refine (tells_byRule fun _ => tells_valueCode (makes_incDecValue cfg _ _ _
      (tells_lower target .first h.2) (tells_lower target .again h.2)) _ _).mono ?_
    cases round <;> constructor <;> simp [Account.of, Expr.account, Expr.operands, Expr.invoked]
  | .conditional tag condition ifTrue ifFalse, round, h => by
    rw [Expr.numbers_conditional, List.nodup_cons, List.nodup_append', List.nodup_append'] at h
    obtain ⟨-, ⟨hcondition, htrue, hd⟩, hfalse, hd'⟩ := h
    have hvalue := makes_conditionalValue tag.access (tells_lower condition round hcondition)
      (tells_lower ifTrue round htrue) (tells_lower ifFalse round hfalse) (Account.disjoint_of hd)
      (by
        cases round with
        | first => exact hd'
        | again => exact List.disjoint_nil_right _)
    rw [lower]
    refine (tells_byRule fun _ => tells_valueCode hvalue _ _).mono ?_
    simpa [Expr.account, Account.of_seq, Expr.operands, Expr.invoked] using Account.covers_cons tag.id
  | .shortcut tag condition ifFalse, round, h => by
    rw [Expr.numbers_shortcut, List.nodup_cons, List.nodup_append'] at h
    obtain ⟨-, hcondition, hfalse, hd⟩ := h
    rw [lower]
    refine (tells_byRule fun _ => tells_valueCode (makes_shortcutValue _
      (tells_lower condition round hcondition) (tells_lower ifFalse round hfalse)
      (Account.disjoint_of hd)) _ _).mono ?_
    simpa [Expr.account, Account.of_seq, Expr.operands, Expr.invoked] using Account.covers_cons tag.id
  | .list tag targets value, round, h => by
    rw [Expr.numbers_list, List.nodup_cons, List.nodup_append'] at h
    obtain ⟨-, htargets, hvalue, -⟩ := h
    rw [lower]
    refine (tells_byRule fun _ => tells_valueCode (makes_listValue _ (tells_lower value round hvalue)
      (makes_unpack (makes_assignElements 0 targets htargets) (makes_assignNulls targets htargets)
        (List.disjoint_nil_left _)) (List.disjoint_nil_right _)) _ _).mono ?_
    cases round <;> constructor <;> (try intro x) <;>
      simp +contextual [Account.seq, Account.of, Expr.account, Expr.operands, Expr.invoked, or_imp]
  | .assign tag target value, round, h => by
    rw [Expr.numbers_assign, List.nodup_cons, List.nodup_append'] at h
    obtain ⟨-, htarget, hvalue, hd⟩ := h
    rw [lower]
    refine (tells_byRule fun _ => tells_valueCode (makes_assignValue _
      (tells_lower target .first htarget) (tells_lower value .first hvalue) rfl rfl hd) _ _).mono ?_
    cases round <;> constructor <;>
      simp [Account.of, Expr.account, Expr.operands, Expr.invoked]
termination_by structural e => e

theorem allTell_lowerAll : ∀ (es : List Expr) (round : Round), (Expr.numbersOf es).Nodup →
    AllTell round (lowerAll cfg es)
  | [], _, _ => nofun
  | e :: rest, round, h => by
    rw [Expr.numbersOf_cons, List.nodup_append'] at h
    exact List.forall_mem_cons.mpr ⟨tells_lower e round h.1, allTell_lowerAll rest round h.2.1⟩
termination_by structural es => es

theorem makes_storeElements : ∀ (es : List ArrayElement) (round : Round),
    (Expr.numbersOfElements es).Nodup → Makes (Expr.accountOfElements round es) (storeElements cfg es)
  | [], round, _ => (Makes.silent (x := pure ())).mono .empty
  | .plain _ value :: rest, round, h => by
    rw [Expr.numbersOfElements_plain, List.nodup_append'] at h
    obtain ⟨hvalue, hrest, hd⟩ := h
    rw [storeElements]
    have hseq := (makes_storePlain (tells_lower value round hvalue)).seq
      (fun _ => makes_storeElements rest round hrest) (Account.disjoint_of hd)
    simpa [Expr.account, Expr.accountOfElements, Account.of_seq, Expr.operandsOfElements,
      Expr.invokedElements] using hseq
  | .keyed _ key value :: rest, round, h => by
    rw [Expr.numbersOfElements_keyed, List.nodup_append', List.nodup_append'] at h
    obtain ⟨⟨hkey, hvalue, hd⟩, hrest, hd'⟩ := h
    rw [storeElements]
    have hstore := makes_storeKeyed (tells_lower key round hkey) (tells_lower value round hvalue)
      (Account.disjoint_of hd)
    rw [Expr.account, Expr.account, Account.of_seq] at hstore
    have hseq := hstore.seq (fun _ => makes_storeElements rest round hrest) (Account.disjoint_of hd')
    simpa [Expr.account, Expr.accountOfElements, Account.of_seq, Expr.operandsOfElements,
      Expr.invokedElements] using hseq
termination_by structural es => es

theorem makes_assignElements : ∀ (index : Nat) (ts : List ListTarget), (Expr.numbersOfTargets ts).Nodup →
    Makes { calls := Expr.invokedTargets ts, places := ListTarget.leavesOf ts ++ Expr.writtenOfTargets ts }
      (assignElements cfg index ts)
  | _, [], _ => (Makes.silent (x := pure ()))
  | index, .skip :: rest, h => makes_assignElements (index + 1) rest h
  | index, .leaf target :: rest, h => by
    rw [Expr.numbersOfTargets_leaf, List.nodup_append'] at h
    rw [assignElements]
    refine ((makes_assignElements (index + 1) rest h.2.1).seq (fun _ => makes_assignElement index
      (tells_lower target .first h.1) rfl) (List.disjoint_nil_left _)).mono ?_
    refine ⟨nofun, nofun, nofun, ?_, fun x => ?_⟩
    · simp [Account.seq, Account.of, Expr.account, Expr.invokedTargets]
    · simp +contextual [Account.seq, Account.of, Expr.account, ListTarget.leavesOf, ListTarget.leaves, or_imp]
  | index, .nested targets :: rest, h => by
    rw [Expr.numbersOfTargets_nested, List.nodup_append'] at h
    rw [assignElements]
    refine ((makes_assignElements (index + 1) rest h.2.1).seq (fun _ => .before fun _ => makes_unpack
      (makes_assignElements 0 targets h.1) (makes_assignNulls targets h.1) (List.disjoint_nil_left _))
      (List.disjoint_nil_left _)).mono ?_
    refine ⟨nofun, nofun, nofun, ?_, fun x => ?_⟩
    · simp [Account.seq, Expr.invokedTargets]
    · simp +contextual [Account.seq, ListTarget.leavesOf, ListTarget.leaves, or_imp]
termination_by structural _ ts => ts

theorem makes_assignNulls : ∀ ts : List ListTarget, (Expr.numbersOfTargets ts).Nodup →
    Makes { calls := Expr.invokedNulls ts, places := ListTarget.leavesOf ts ++ Expr.writtenOfTargets ts }
      (assignNulls cfg ts)
  | [], _ => (Makes.silent (x := pure ()))
  | .skip :: rest, h => makes_assignNulls rest h
  | .leaf target :: rest, h => by
    rw [Expr.numbersOfTargets_leaf, List.nodup_append'] at h
    rw [assignNulls]
    refine ((makes_assignNulls rest h.2.1).seq (fun _ => makes_assignNull
      (tells_lower target .first h.1) rfl) (List.disjoint_nil_left _)).mono ?_
    refine ⟨nofun, nofun, nofun, ?_, fun x => ?_⟩
    · simp [Account.seq, Account.of, Expr.account, Expr.invokedNulls]
    · simp +contextual [Account.seq, Account.of, Expr.account, ListTarget.leavesOf, ListTarget.leaves, or_imp]
  | .nested targets :: rest, h => by
    rw [Expr.numbersOfTargets_nested, List.nodup_append'] at h
    rw [assignNulls]
    refine ((makes_assignNulls rest h.2.1).seq (fun _ => makes_assignNulls targets h.1)
      (List.disjoint_nil_left _)).mono ?_
    refine ⟨nofun, nofun, nofun, ?_, fun x => ?_⟩
    · simp [Account.seq, Expr.invokedNulls]
    · simp +contextual [Account.seq, ListTarget.leavesOf, ListTarget.leaves, or_imp]
termination_by structural ts => ts

end

end Lowering
end PhpLowering
