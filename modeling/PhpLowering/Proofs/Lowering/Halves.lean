import PhpLowering.Proofs.Lowering.Operands

/-!
# The two halves of an update

An item of an item, and so on down to a variable, is found by its indices.  What is updated is
addressed for writing first and then for reading.  The code of both halves goes down the same path:
it fetches one container from the other, each with the next index as the key.  `ends_addressed` says
so for either half, and that the key is what the index is worth at the moment (`Host.operand`), by
which time the index has been evaluated.

The indices are evaluated in the half that comes first.  In the other one they are at hand, and then
nothing happens besides (`Steady`).  `Updates.keys` puts the two halves together: an index is worth the
same in both of them, unless it is a variable that has been assigned to in the meantime (`UpdateKeys`).
-/

namespace PhpLowering

/-- The instruction that stores to a location. -/
def Expr.storer? : Expr → Option Instruction
  | .var _ name => some (.storeVar name)
  | .item .. => some (.call .setItem)
  | .append .. => some (.call .append)
  | _ => none

/-- The variable at the root of a chain of items, and the indices, the one next to it first. -/
def Expr.path? : Expr → Option (String × List Expr)
  | .var _ name => some (name, [])
  | .item _ container index => container.path?.map fun (name, indices) => (name, indices ++ [index])
  | _ => none
termination_by structural e => e

theorem Expr.path?_item {tag : ExprTag} {container index : Expr} {name : String} {indices : List Expr}
    (hpath : (Expr.item tag container index).path? = some (name, indices)) :
    ∃ init, container.path? = some (name, init) ∧ indices = init ++ [index] := by
  obtain ⟨⟨_, init⟩, hcontainer, heq⟩ := Option.map_eq_some_iff.mp hpath
  obtain ⟨rfl, rfl⟩ := Prod.mk.inj heq
  exact ⟨init, hcontainer, rfl⟩

/-- A chain of items that is not just a variable. -/
theorem Expr.eq_item_of_path? {e : Expr} {name : String} {indices : List Expr}
    (hpath : e.path? = some (name, indices)) (hne : indices ≠ []) :
    ∃ tag container index init, e = .item tag container index ∧ container.path? = some (name, init) ∧
      indices = init ++ [index] := by
  cases e with
  | var => cases hpath; exact absurd rfl hne
  | item tag container index =>
    obtain ⟨init, hcontainer, heq⟩ := path?_item hpath
    exact ⟨tag, container, index, init, rfl, hcontainer, heq⟩
  | _ => exact nomatch hpath

namespace Lowering

open Pass (Ends)
open Config (Arrives)

variable {s t u v w x : State Chunk} {cfg : Setting} {e index container : Expr} {indices : List Expr}
  {h : Host} {half : Half} {name : String}

/-! ## One half -/

namespace Half

/-- What a container is used for. -/
def use : Half → Use
  | .write => .arrayForWrite
  | .read => .containerRead

/-- The primitive that fetches a container from a container. -/
def op : Half → RuntimeOp
  | .write => .getItemForWrite
  | .read => .getItem

/-- The instruction that fetches the container in a variable. -/
def root (name : String) : Half → Instruction
  | .write => .loadVarArray name
  | .read => .loadVar name

end Half

/-- A key was used for an operand. -/
structure Fetches (op : RuntimeOp) (r : Routine) (slot? : Nat → Option Temp) (slots : Temp → h.Value)
    (e : Expr) (use : KeyUse h) : Prop where
  op : use.op = op
  key : h.operand r slot? slots use.world e = some use.key

/-- Keys were used on top of the same stack, the first one right at the beginning, and nothing was
stored. -/
structure Steady (c mid : Config h) (first : List (KeyUse h)) : Prop where
  below : ∀ use ∈ first, use.below = c.stack.length
  slots : mid.slots = c.slots
  world : (first.map KeyUse.world).head?.getD mid.world = c.world

/-- The code between two states leaves a container.  On the way to it the indices are the keys that
are used on top of the stack that the code starts on; what else is used belongs to the evaluation of an
index. -/
def Addresses (half : Half) (indices : List Expr) (s t : State Chunk) : Prop :=
  ∀ (r : Routine) (goal : Nat) (h : Host) (c d : Config h) (trace : List (KeyUse h)), t.active.Grows r →
    t.active.position ≤ goal → c.pc = s.active.position → Arrives r goal c trace d →
    ∃ v mid first, Pushed r goal s.active t.active c trace d v mid first ∧
      List.Forall₂ (Fetches half.op r t.slot? mid.slots) indices
        (first.filter fun use => use.below = c.stack.length) ∧
      (half = .read → (∀ e ∈ indices, AtHand s e) → Steady c mid first)

/-- One more instruction has been emitted. -/
structure Appended (i : Instruction) (s t : State Chunk) : Prop extends Tidy s t where
  active : t.active = s.active.push i
  sameChains : t.chains = s.chains

theorem Appended.position {i : Instruction} (hst : Appended i s t) :
    t.active.position = s.active.position + 1 := by
  rw [hst.active, Routine.position_push]

theorem Appended.code {i : Instruction} (hst : Appended i s t) {r : Routine} (hr : t.active.Grows r) :
    r.code[s.active.position]? = some i :=
  hr.code (hst.active ▸ s.active.code_push_self i)

theorem Appended.slot? {i : Instruction} (hst : Appended i s t) : t.slot? = s.slot? := by
  funext id
  rw [State.slot?, State.slot?, hst.sameChains]

theorem ends_appended (i : Instruction) (hs : s.active.SlotsInOrder) :
    Ends (emit i) s (fun _ t => Appended i s t) anyFailure := by
  refine (ends_emit i s).mono ?_
  rintro _ _ rfl
  exact ⟨.withActive hs (Routine.grows_push _ _) rfl rfl rfl rfl, State.active_withActive _ _, rfl⟩

/-- A variable is fetched in one step. -/
theorem addresses_root (ht : t.active = s.active.push (half.root name)) : Addresses half [] s t := by
  intro r goal h c d trace hgrows hgoal hpc hrun
  rw [ht] at hgrows hgoal ⊢
  rw [Routine.position_push] at hgoal
  have hi := hgrows.code (s.active.code_push_self (half.root name))
  rw [← hpc] at hgoal hi
  have hplain : (half.root name).isPlain = true := by cases half <;> rfl
  have hpops : (half.root name).pops = 0 := by cases half <;> rfl
  have hyields : (half.root name).yields = 1 := by cases half <;> rfl
  obtain ⟨out, world, later, heval, rfl, hlater⟩ := hrun.plain [] hgoal hi hplain rfl hpops.symm
  have hlength := h.length_of_evaluate (by exact hpops.symm) heval
  obtain ⟨v, rfl⟩ := List.length_eq_one_iff.mp (hlength.trans hyields)
  have hslots : h.store c.slots (half.root name) [] = c.slots := by cases half <;> rfl
  have huse : h.keyUse? (half.root name) [] c.stack.length c.world = none := by cases half <;> rfl
  rw [hslots] at hlater
  rw [huse]
  refine ⟨v, ⟨c.pc + 1, v :: c.stack, c.slots, world⟩, [], ⟨?_, rfl, fun _ _ => rfl, nofun, later, rfl,
    hlater⟩, .nil, ?_⟩
  · rw [Routine.position_push, hpc]
  · rintro rfl -
    cases heval
    exact ⟨nofun, rfl, rfl⟩

/-- A run has pushed what a location is found by, the container and the key. -/
structure Located (half : Half) (indices : List Expr) (index : Expr) (r : Routine) (goal : Nat)
    (s u : State Chunk) (c : Config h) (trace : List (KeyUse h)) (d : Config h) (key container : h.Value)
    (mid : Config h) (uses : List (KeyUse h)) : Prop where
  pc : mid.pc = u.active.position
  stack : mid.stack = key :: container :: c.stack
  slots : ∀ k, ¬ s.active.Vacant k → mid.slots k = c.slots k
  above : ∀ use ∈ uses, c.stack.length ≤ use.below
  fetched : List.Forall₂ (Fetches half.op r u.slot? mid.slots) indices
    (uses.filter fun use => use.below = c.stack.length)
  key : h.operand r u.slot? mid.slots mid.world index = some key
  steady : half = .read → (∀ e ∈ indices ++ [index], AtHand s e) → Steady c mid uses
  later : ∃ rest, trace = uses ++ rest ∧ Arrives r goal mid rest d

/-- The key is evaluated when the container is at hand. -/
theorem Addresses.located {r : Routine} {goal : Nat} {c d : Config h} {trace : List (KeyUse h)}
    (hs : InChain s) (hst : Tidy s t) (htu : Tidy t u) (hcontainer : Addresses half indices s t)
    (hindex : Evaluates index t u) (hgrows : u.active.Grows r) (hgoal : u.active.position ≤ goal)
    (hpc : c.pc = s.active.position) (hrun : Arrives r goal c trace d) :
    ∃ key container mid uses, Located half indices index r goal s u c trace d key container mid uses := by
  have hle := htu.grows.position
  obtain ⟨container, mid, first, hmid, hkeys, hsteady⟩ :=
    hcontainer r goal h c d trace (htu.grows.trans hgrows) (by omega) hpc hrun
  obtain ⟨rest, rfl, hrest⟩ := hmid.later
  obtain ⟨key, mid', first', hmid', hkey, hhand⟩ :=
    hindex r goal h mid d rest hgrows hgoal hmid.pc hrest
  obtain ⟨rest', rfl, hrest'⟩ := hmid'.later
  -- The keys that were used for the index lie above the container.
  have hdeep : ∀ use ∈ first', c.stack.length < use.below := by
    intro use huse
    have hbelow := hmid'.below use huse
    rwa [hmid.stack, List.length_cons] at hbelow
  have hnone : first'.filter (fun use => use.below = c.stack.length) = [] :=
    List.filter_eq_nil_iff.mpr fun use huse => by simpa using Nat.ne_of_gt (hdeep use huse)
  refine ⟨key, container, mid', first ++ first', ?_⟩
  constructor
  case pc => exact hmid'.pc
  case stack => rw [hmid'.stack, hmid.stack]
  case slots => exact fun k hk => (hmid'.slots k fun hv => hk (hst.vacant k hv)).trans (hmid.slots k hk)
  case above =>
    exact List.forall_mem_append.mpr ⟨hmid.below, fun use huse => Nat.le_of_lt (hdeep use huse)⟩
  case fetched =>
    rw [List.filter_append, hnone, List.append_nil]
    exact hkeys.imp fun e use huse =>
      ⟨huse.op, htu.operand (hst.inChain hs) (fun k hk => hmid'.slots k hk) huse.key⟩
  case key => exact hkey
  case steady =>
    intro hread hall
    obtain ⟨hindices, hindex⟩ := List.forall_mem_append.mp hall
    have hsteady := hsteady hread hindices
    obtain ⟨rfl, hslots, hworld⟩ := hhand (hst.atHand (hindex index List.mem_cons_self))
    rw [List.append_nil]
    exact ⟨hsteady.below, hslots.trans hsteady.slots, by rw [hworld]; exact hsteady.world⟩
  case later => exact ⟨rest', by rw [List.append_assoc], hrest'⟩

/-- The next container is fetched from the one at hand. -/
theorem Addresses.item (hs : InChain s) (hst : Tidy s t) (htu : Tidy t u)
    (hcontainer : Addresses half indices s t) (hindex : Evaluates index t u)
    (huv : Appended (.call half.op) u v) : Addresses half (indices ++ [index]) s v := by
  intro r goal h c d trace hgrows hgoal hpc hrun
  rw [huv.active] at hgrows hgoal
  rw [Routine.position_push] at hgoal
  obtain ⟨key, container, mid, uses, hmid⟩ := hcontainer.located hs hst htu hindex
    ((u.active.grows_push _).trans hgrows) (Nat.le_of_succ_le hgoal) hpc hrun
  obtain ⟨rest, rfl, hrest⟩ := hmid.later
  have hi := hgrows.code (u.active.code_push_self (.call half.op))
  rw [← hmid.pc] at hi hgoal
  obtain ⟨found, world, later, rfl, hlater⟩ := hrest.keyed hgoal hi (by cases half <;> rfl)
    (by cases half <;> rfl) (by cases half <;> rfl) hmid.stack
  refine ⟨found, ⟨mid.pc + 1, found :: c.stack, mid.slots, world⟩,
    uses ++ [⟨half.op, key, c.stack.length, mid.world⟩], ⟨?_, rfl, hmid.slots, ?_, later, ?_, hlater⟩, ?_,
    fun hread hall => ?_⟩
  · rw [huv.active, Routine.position_push, hmid.pc]
  · exact List.forall_mem_append.mpr ⟨hmid.above, List.forall_mem_singleton.mpr (Nat.le_refl _)⟩
  · rw [List.append_assoc, List.singleton_append]
  · rw [List.filter_append, List.filter_singleton, decide_eq_true rfl, cond_true, huv.slot?]
    exact List.rel_append hmid.fetched (.cons ⟨rfl, hmid.key⟩ .nil)
  · have hsteady := hmid.steady hread hall
    refine ⟨List.forall_mem_append.mpr ⟨hsteady.below, by simp⟩, hsteady.slots, ?_⟩
    rw [← hsteady.world]
    cases uses <;> rfl

/-- What a location is found by has been pushed: the container and the key. -/
structure Prepares (half : Half) (indices : List Expr) (index : Expr) (s t u : State Chunk) : Prop where
  first : Tidy s t
  second : Tidy t u
  container : Addresses half indices s t
  key : Evaluates index t u
  atHand : ∀ e ∈ indices ++ [index], AtHand u e

/-- A step after which the containers down a path have been fetched, and the indices are at hand. -/
def EndsAddressed (half : Half) (indices : List Expr) (x : Emit Chunk TypeCode) : Prop :=
  ∀ s, InChain s → Ends x s (fun _ t => Tidy s t ∧ Addresses half indices s t ∧
    ∀ e ∈ indices, AtHand t e) anyFailure

theorem ends_prepare (hcontainer : EndsAddressed half indices (lower cfg container half.use))
    (hread : index.access = .read) (hs : InChain s) :
    Ends (itemPlace.prepare (lower cfg container) (chainOperand index (lower cfg index)) half) s
      (fun _ u => ∃ t, Prepares half indices index s t u) anyFailure := by
  have hbind : (itemPlace.prepare (lower cfg container) (chainOperand index (lower cfg index)) half :
      Emit Chunk Unit) = (do
        let _ ← lower cfg container half.use
        let _ ← chainOperand index (lower cfg index)) := by
    cases half <;> rfl
  rw [hbind]
  refine (hcontainer s hs).bind ?_
  rintro _ t ⟨hst, haddresses, hindices⟩
  refine (ends_chainOperand (hst.inChain hs) hread).bind ?_
  rintro _ u ⟨htu, hindex, hevaluates⟩
  refine .pure ⟨t, hst, htu, haddresses, hevaluates, ?_⟩
  refine List.forall_mem_append.mpr ⟨fun e he => htu.atHand (hindices e he), ?_⟩
  exact fun e he => List.mem_singleton.mp he ▸ hindex

/-- Another table makes no difference. -/
theorem Tidy.ofTable {table : RuleTable} (h : Tidy { s with table := table } t) : Tidy s t :=
  ⟨h.same, h.sameFrame, h.grows, h.order, h.vacant, h.chains⟩

theorem endsAddressed_byRule {kind : ExprKind} {tag : ExprTag} {code : Home ExprKind → Code Chunk}
    (hcode : ∀ home, EndsAddressed half indices (code home half.use)) :
    EndsAddressed half indices (byRule cfg kind tag code half.use) := by
  intro s hs
  refine ends_byRule fun home table => ?_
  refine (hcode home { s with table := table } ⟨hs.order, hs.taken, hs.quiet⟩).mono ?_
  rintro _ t ⟨hst, haddresses, hhand⟩
  exact ⟨hst.ofTable, haddresses, hhand⟩

theorem endsAddressed_var (tag : ExprTag) (name : String) :
    EndsAddressed half [] (lower cfg (.var tag name) half.use) := by
  rw [lower]
  refine endsAddressed_byRule fun _ s hs => ?_
  have hemit : Ends (emit (half.root name)) s (fun _ t =>
      Tidy s t ∧ Addresses half [] s t ∧ ∀ e ∈ ([] : List Expr), AtHand t e) anyFailure := by
    refine (ends_appended _ hs.order).mono fun _ t ht => ?_
    exact ⟨ht.toTidy, addresses_root ht.active, nofun⟩
  cases half with
  | write => exact hemit.bind fun _ _ ht => .pure ht
  | read => exact hemit.bind fun _ _ ht => .pure ht

theorem endsAddressed_item (tag : ExprTag)
    (hcontainer : EndsAddressed half indices (lower cfg container half.use))
    (hread : index.access = .read) :
    EndsAddressed half (indices ++ [index]) (lower cfg (.item tag container index) half.use) := by
  rw [lower]
  refine endsAddressed_byRule fun _ s hs => ?_
  have hprepare := ends_prepare hcontainer hread hs
  have hcall : ∀ u t, Prepares half indices index s t u →
      Ends (call half.op : Emit Chunk TypeCode) u (fun _ t => Tidy s t ∧
        Addresses half (indices ++ [index]) s t ∧ ∀ e ∈ indices ++ [index], AtHand t e) anyFailure := by
    intro u t hu
    refine (ends_appended _ hu.second.order).bind fun _ v hv => ?_
    exact .pure ⟨(hu.first.trans hu.second).trans hv.toTidy,
      hu.container.item hs hu.first hu.second hu.key hv, fun e he => hv.atHand (hu.atHand e he)⟩
  cases half with
  | write =>
    refine hprepare.bind ?_
    rintro _ u ⟨t, hu⟩
    exact hcall u t hu
  | read =>
    refine hprepare.bind ?_
    rintro _ u ⟨t, hu⟩
    refine .peek_bind ?_
    rw [((hu.first.trans hu.second).inChain hs).quiet]
    exact hcall u t hu

/-- **In either half the containers down a path are fetched with the indices as keys.** -/
theorem ends_addressed (half : Half) :
    ∀ (e : Expr) {name : String} {indices : List Expr}, e.path? = some (name, indices) →
      (∀ index ∈ indices, index.access = .read) → EndsAddressed half indices (lower cfg e half.use)
  | .var tag name, _, _, hpath, _ => by
    cases hpath
    exact endsAddressed_var tag name
  | .item tag container index, _, _, hpath, hread => by
    obtain ⟨init, hcontainer, rfl⟩ := Expr.path?_item hpath
    obtain ⟨hinit, hindex⟩ := List.forall_mem_append.mp hread
    exact endsAddressed_item tag (ends_addressed half container hcontainer hinit)
      (hindex index List.mem_cons_self)
  | .literal .., _, _, hpath, _ | .constant .., _, _, hpath, _ | .append .., _, _, hpath, _
  | .array .., _, _, hpath, _ | .concat .., _, _, hpath, _ | .call .., _, _, hpath, _
  | .binary .., _, _, hpath, _ | .unary .., _, _, hpath, _ | .incDec .., _, _, hpath, _
  | .conditional .., _, _, hpath, _ | .shortcut .., _, _, hpath, _ | .list .., _, _, hpath, _
  | .assign .., _, _, hpath, _ => nomatch hpath
termination_by structural e => e

/-! ## Both halves -/

/-- The location is addressed for writing and then for reading, its value is changed, and the new value is
stored. -/
structure Updates (indices : List Expr) (index : Expr) (s t u v w x : State Chunk) : Prop where
  written : Prepares .write indices index s t u
  tidy : Tidy u v
  read : Addresses .read (indices ++ [index]) u v
  changed : Laid Instruction.KeyFree 1 1 v w
  stored : Appended (.call .setItem) w x

theorem ends_prepareItem (tag : ExprTag)
    (hcontainer : EndsAddressed half indices (lower cfg container half.use)) (hread : index.access = .read)
    (hs : InChain s) :
    Ends (lower cfg (.item tag container index) (.prepare half)) s
      (fun _ u => ∃ t, Prepares half indices index s t u) anyFailure := by
  rw [lower]
  refine ends_byRule fun _ table => ?_
  have htable : InChain { s with table := table } := ⟨hs.order, hs.taken, hs.quiet⟩
  refine (ends_prepare hcontainer hread htable).bind ?_
  rintro _ u ⟨t, hu⟩
  exact .pure ⟨t, hu.first.ofTable, hu.second, hu.container, hu.key, hu.atHand⟩

/-- The value of an item that has been addressed for reading. -/
theorem ends_loadItem (tag : ExprTag) (hs : InChain s) :
    Ends (lower cfg (.item tag container index) .load) s
      (fun kind t => kind = .object ∧ Appended (.call .getItem) s t) anyFailure := by
  rw [lower]
  refine ends_byRule fun _ table => .peek_bind ?_
  have hquiet : ({ s with table := table } : State Chunk).chains.head?.map Chain.quiet = some false := hs.quiet
  rw [hquiet]
  refine (ends_appended (s := { s with table := table }) (.call .getItem) hs.order).bind fun _ t ht => ?_
  exact .pure ⟨rfl, ht.ofTable, ht.active, ht.sameChains⟩

/-- A location that has been addressed is stored to in one step. -/
theorem ends_store (e : Expr) (hs : s.active.SlotsInOrder) :
    Ends (lower cfg e .store) s (fun _ t => ∃ i, e.storer? = some i ∧ Appended i s t) anyFailure := by
  have hstore : ∀ (table : RuleTable) (i : Instruction), Ends (emit i >>= fun _ => pure TypeCode.void)
      { s with table := table } (fun _ t => Appended i s t) anyFailure := fun table i =>
    (ends_appended (s := { s with table := table }) i hs).bind fun _ t ht =>
      .pure ⟨ht.ofTable, ht.active, ht.sameChains⟩
  cases e with
  | var tag name =>
    rw [lower]
    exact ends_byRule fun _ table => (hstore table (.storeVar name)).mono fun _ _ ht => ⟨_, rfl, ht⟩
  | item =>
    rw [lower]
    exact ends_byRule fun _ table => (hstore table (.call .setItem)).mono fun _ _ ht => ⟨_, rfl, ht⟩
  | append =>
    rw [lower]
    exact ends_byRule fun _ table => (hstore table (.call .append)).mono fun _ _ ht => ⟨_, rfl, ht⟩
  | _ =>
    rw [lower]
    exact ends_byRule fun _ _ => .fail trivial

/-- **An item that is updated** is addressed twice. -/
theorem ends_update {tag : ExprTag} (used increment post : Bool)
    (hpath : container.path? = some (name, indices)) (hread : ∀ e ∈ indices ++ [index], e.access = .read)
    (hs : InChain s) :
    Ends (do
      let _ ← lower cfg (.item tag container index) (.prepare .write)
      let _ ← lower cfg (.item tag container index) (.prepare .read)
      let code ← lower cfg (.item tag container index) .load
      let _ ← box code
      let saved ← resultSlot used
      changeValue increment post saved
      let _ ← lower cfg (.item tag container index) .store
      return saved) s (fun _ x => ∃ t u v w, Updates indices index s t u v w x) anyFailure := by
  obtain ⟨hindices, hindex⟩ := List.forall_mem_append.mp hread
  have hindex := hindex index List.mem_cons_self
  refine (ends_prepareItem tag (ends_addressed .write container hpath hindices) hindex hs).bind ?_
  rintro _ u ⟨t, hwritten⟩
  have hu := (hwritten.first.trans hwritten.second).inChain hs
  refine (ends_prepareItem tag (ends_addressed .read container hpath hindices) hindex hu).bind ?_
  rintro _ u' ⟨t', hread⟩
  have hu' := (hread.first.trans hread.second).inChain hu
  refine (ends_loadItem tag hu').bind ?_
  rintro _ v ⟨rfl, hv⟩
  have hloaded : Addresses .read (indices ++ [index]) u v :=
    hread.container.item hu hread.first hread.second hread.key hv
  refine Ends.bind (Q := fun _ v' => v = v') (.pure rfl) ?_
  rintro _ _ rfl
  refine (ends_resultSlot used hv.order).bind ?_
  rintro saved w ⟨hw, hcode, -, -⟩
  refine (ends_changeValue (P := Instruction.KeyFree) increment post saved hw.order nofun (fun _ _ => nofun)
    (by cases increment <;> exact fun _ h => Instruction.call.inj h ▸ rfl)).bind fun _ w' hw' => ?_
  refine (ends_store (.item tag container index) hw'.order).bind ?_
  rintro _ x ⟨_, ⟨⟩, hx⟩
  exact .pure ⟨t, u, v, w', hwritten, (hread.first.trans hread.second).trans hv.toTidy, hloaded,
    (Laid.of_tidy hw hcode).trans hw', hx⟩

/-! ### The keys of an update -/

/-- What the half for writing uses as keys, each with the world in which it is pushed.  The last one is
pushed right before the other half begins, and used when the new value is stored. -/
def writeKeys (below : Nat) (first reads : List (KeyUse h)) (store : KeyUse h) :
    List (h.World × h.Value) :=
  (first.filter fun use => use.below = below).map (fun use => (use.world, use.key)) ++
    (reads.take 1).map fun use => (use.world, store.key)

/-- The keys that an update uses: those of the half for writing, among which there are keys that were used
while an index was evaluated and lie above the others, those of the half for reading, and the one under
which the new value is stored.  **At every position the halves use the same key exactly if the index there
is worth the same in both.** -/
structure UpdateKeys (h : Host) (indices : List Expr) (below : Nat) (first reads : List (KeyUse h))
    (store : KeyUse h) : Prop where
  above : ∀ use ∈ first, below ≤ use.below
  written : ∀ use ∈ first, use.below = below → use.op = .getItemForWrite
  read : ∀ use ∈ reads, use.op = .getItem
  stored : store.op = .setItem ∧ store.below = below
  lengths : (writeKeys below first reads store).length = indices.length ∧ reads.length = indices.length
  agree : ∀ (k : Nat) (e : Expr), indices[k]? = some e → ∃ written read,
    (writeKeys below first reads store)[k]? = some written ∧ reads[k]? = some read ∧
      (written.2 = read.key ↔ h.Unchanged e written.1 read.world)

theorem exists_getElem?_of_forall₂ {α β : Type} {R : α → β → Prop} {as : List α} {bs : List β}
    (h : List.Forall₂ R as bs) {k : Nat} {a : α} (ha : as[k]? = some a) : ∃ b, bs[k]? = some b ∧ R a b := by
  induction h generalizing k with
  | nil => exact nomatch ha
  | cons hfirst _ ih =>
    cases k with
    | zero => exact ⟨_, rfl, Option.some.inj ha ▸ hfirst⟩
    | succ k => exact ih ha

theorem op_of_fetches {op : RuntimeOp} {r : Routine} {slot? : Nat → Option Temp} {slots : Temp → h.Value}
    {uses : List (KeyUse h)} (huses : List.Forall₂ (Fetches op r slot? slots) indices uses) :
    ∀ use ∈ uses, use.op = op := by
  induction huses with
  | nil => nofun
  | cons huse _ ih => exact List.forall_mem_cons.mpr ⟨huse.op, ih⟩

/-- What the keys are worth in either half decides whether they agree. -/
theorem UpdateKeys.of_operands {r : Routine} {slot? : Nat → Option Temp} {slots : Temp → h.Value}
    {first reads : List (KeyUse h)} {store : KeyUse h} {below : Nat}
    (above : ∀ use ∈ first, below ≤ use.below)
    (fetched : ∀ use ∈ first, use.below = below → use.op = .getItemForWrite)
    (stored : store.op = .setItem ∧ store.below = below)
    (written : List.Forall₂ (fun e (p : h.World × h.Value) => h.operand r slot? slots p.1 e = some p.2)
      indices (writeKeys below first reads store))
    (read : List.Forall₂ (Fetches .getItem r slot? slots) indices reads) :
    UpdateKeys h indices below first reads store where
  above := above
  written := fetched
  read := op_of_fetches read
  stored := stored
  lengths := ⟨written.length_eq.symm, read.length_eq.symm⟩
  agree k e he := by
    obtain ⟨p, hp, hwritten⟩ := exists_getElem?_of_forall₂ written he
    obtain ⟨use, huse, hread⟩ := exists_getElem?_of_forall₂ read he
    exact ⟨p, use, hp, huse, h.operand_eq_iff hwritten hread.key⟩

/-- What the keys of the half for writing are worth does not change until the end of the other half. -/
theorem Located.operands {r : Routine} {goal : Nat} {c d mid : Config h} {trace first rest : List (KeyUse h)}
    {key container : h.Value} {use store : KeyUse h}
    (hmid : Located .write indices index r goal s u c trace d key container mid first) (hu : InChain u)
    (huv : Tidy u v) (huse : use.world = mid.world) (hstore : store.key = key) :
    List.Forall₂ (fun e (p : h.World × h.Value) => h.operand r v.slot? mid.slots p.1 e = some p.2)
      (indices ++ [index]) (writeKeys c.stack.length first (use :: rest) store) := by
  subst hstore
  refine List.rel_append (List.forall₂_map_right_iff.mpr (hmid.fetched.imp fun e use he => ?_)) ?_
  · exact huv.operand hu (fun _ _ => rfl) he.key
  · refine .cons ?_ .nil
    show h.operand r v.slot? mid.slots use.world index = some store.key
    rw [huse]
    exact huv.operand hu (fun _ _ => rfl) hmid.key

theorem Updates.whole (hx : Updates indices index s t u v w x) : Tidy s x :=
  ((hx.written.first.trans hx.written.second).trans hx.tidy).trans
    (hx.changed.toTidy.trans hx.stored.toTidy)

/-- **A run of an update** uses the keys that it should and nothing else. -/
theorem Updates.keys {r : Routine} {goal : Nat} {c d : Config h} {trace : List (KeyUse h)} (hs : InChain s)
    (hx : Updates indices index s t u v w x) (hgrows : x.active.Grows r)
    (hgoal : x.active.position ≤ goal) (hpc : c.pc = s.active.position) (hrun : Arrives r goal c trace d) :
    ∃ first reads store mid later, trace = first ++ (reads ++ store :: later) ∧
      mid.pc = x.active.position ∧ Arrives r goal mid later d ∧
      UpdateKeys h (indices ++ [index]) c.stack.length first reads store := by
  have hw := hx.stored.grows.trans hgrows
  have hv := hx.changed.grows.trans hw
  have huv := hx.tidy.grows.position
  have hvw := hx.changed.grows.position
  have hposition : x.active.position = w.active.position + 1 := by
    rw [hx.stored.active, Routine.position_push]
  -- The half for writing.
  obtain ⟨key, container, mid₁, first, h₁⟩ := hx.written.container.located hs hx.written.first
    hx.written.second hx.written.key (hx.tidy.grows.trans hv) (by omega) hpc hrun
  obtain ⟨trace₁, rfl, hrun₁⟩ := h₁.later
  -- The half for reading.
  obtain ⟨value, mid₂, reads, h₂, hread, hhand⟩ :=
    hx.read r goal h mid₁ d trace₁ hv (by omega) h₁.pc hrun₁
  obtain ⟨trace₂, rfl, hrun₂⟩ := h₂.later
  have hsteady := hhand rfl hx.written.atHand
  rw [hsteady.slots, List.filter_eq_self.mpr fun use huse => decide_eq_true (hsteady.below use huse)]
    at hread
  -- The value is changed and stored.
  have hloaded : mid₂.stack = [value] ++ mid₁.stack := h₂.stack
  obtain ⟨mid₃, h₃⟩ := (hx.changed.code.grows hw).passed h₂.pc hloaded rfl (by omega) hrun₂
  obtain ⟨top, hstack, htop⟩ := h₃.stack
  obtain ⟨value', rfl⟩ := List.length_eq_one_iff.mp htop
  have hset : r.code[mid₃.pc]? = some (.call .setItem) := by
    rw [h₃.pc]
    exact hgrows.code (hx.stored.active ▸ w.active.code_push_self _)
  rw [h₁.stack] at hstack
  obtain ⟨world, later, rfl, hlater⟩ := h₃.silent.setItem (by rw [h₃.pc]; omega) hset hstack
  refine ⟨first, reads, ⟨.setItem, key, c.stack.length, mid₃.world⟩,
    ⟨mid₃.pc + 1, c.stack, mid₃.slots, world⟩, later, rfl, by rw [hposition, h₃.pc], hlater, ?_⟩
  refine .of_operands h₁.above (fun use huse hbelow => ?_) ⟨rfl, rfl⟩ ?_ hread
  · exact op_of_fetches h₁.fetched use (List.mem_filter.mpr ⟨huse, decide_eq_true hbelow⟩)
  · obtain ⟨use, rest, rfl⟩ :=
      List.exists_cons_of_length_eq_add_one (hread.length_eq.symm.trans List.length_append)
    exact h₁.operands ((hx.written.first.trans hx.written.second).inChain hs) hx.tidy hsteady.world rfl

end Lowering
end PhpLowering
