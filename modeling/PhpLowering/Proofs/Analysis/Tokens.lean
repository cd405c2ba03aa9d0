import Mathlib.Data.List.Perm.Subperm
import PhpLowering.Proofs.Acceptance
import PhpLowering.Proofs.Analysis.Containment

/-!
# Tokens for the nodes of a tree

The nodes of an analysed tree are nodes that were given, or new ones with the next number.  A `Token` is the
number of a node, and for an array literal also the keys that have been counted under it.  A list of tokens
that is true of a state is in `Balance` with it: no two array literals have the same number, and no two nodes
have, as long as the numbering does not come round to numbers that there were before (`Ledger.Steady`).

`Numbers L given x left` says that the computation `x` can be done with the tokens `given`, and leaves the
tokens `left`.  They are used up in the course of a computation: what one step leaves, together with what
it was not handed, is what is given to the next one (`Numbers.bind`).
-/

namespace PhpLowering

/-! ## Keys -/

/-- One more key. -/
def KeyCount.add (n : KeyCount) (isInteger : Bool) : KeyCount :=
  if isInteger then { n with integers := n.integers + 1 } else { n with others := n.others + 1 }

/-- Whether a key is counted as an integer.  An element without a key gets the next integer. -/
def keyIsInteger : Option Expr → Bool
  | none => true
  | some key =>
    match key.value? with
    | some v => v.isIntegerKey
    | none => false

/-- The key of an element of an array literal, if there is one. -/
def ArrayElement.key? : ArrayElement → Option Expr
  | .plain .. => none
  | .keyed _ key _ => some key

/-- The keys of the elements of an array literal, and those counted before. -/
def KeyCount.addAll (n : KeyCount) (elements : List ArrayElement) : KeyCount :=
  elements.foldl (fun n element => n.add (keyIsInteger element.key?)) n

@[simp] theorem KeyCount.addAll_nil (n : KeyCount) : n.addAll [] = n := rfl

@[simp] theorem KeyCount.addAll_cons (n : KeyCount) (element : ArrayElement) (rest : List ArrayElement) :
    n.addAll (element :: rest) = (n.add (keyIsInteger element.key?)).addAll rest := rfl

/-- The keys of an array literal, and none for any other node. -/
def Expr.keys : Expr → Option KeyCount
  | .array _ elements => some (KeyCount.addAll {} elements)
  | .literal .. | .concat .. | .binary .. | .unary .. | .incDec .. | .conditional .. | .shortcut .. | .list ..
  | .var .. | .item .. | .append .. | .assign .. | .call .. | .constant .. => none

/-- The keys of an array literal of which nothing has been counted yet. -/
def Expr.noKeys : Expr → Option KeyCount
  | .array .. => some {}
  | .literal .. | .concat .. | .binary .. | .unary .. | .incDec .. | .conditional .. | .shortcut .. | .list ..
  | .var .. | .item .. | .append .. | .assign .. | .call .. | .constant .. => none

namespace RuleMemory

theorem keyCount_empty (home : Home ExprKind) : ({} : RuleMemory).keyCount home = {} := by
  simp [keyCount]

theorem keyCount_countKey_self (m : RuleMemory) (home : Home ExprKind) (isInteger : Bool) :
    (m.countKey home isInteger).keyCount home = (m.keyCount home).add isInteger := by
  simp [countKey, keyCount, KeyCount.add]

theorem keyCount_countKey_of_ne (m : RuleMemory) {home other : Home ExprKind} (h : home ≠ other)
    (isInteger : Bool) : (m.countKey home isInteger).keyCount other = m.keyCount other := by
  simp [countKey, keyCount, Std.HashMap.getD_insert, h]

end RuleMemory

/-! ## Tokens -/

/-- The number of a node, and what has been counted under it if it is an array literal. -/
abbrev Token := Nat × Option KeyCount

/-- The token of a node that is no array literal. -/
abbrev Token.new (i : Nat) : Token := (i, none)

/-- The numbers of the array literals among some nodes. -/
def Token.arrays (tokens : List Token) : List Nat :=
  (tokens.filter fun token => token.2.isSome).map Prod.fst

namespace Expr

/-- Tokens for an expression and all that it contains. -/
def tagged (f : Expr → Option KeyCount) (e : Expr) : List Token :=
  e.subexprs.map fun x => (x.id, f x)

/-- Tokens for expressions and all that they contain. -/
def taggedAll (f : Expr → Option KeyCount) (es : List Expr) : List Token :=
  es.flatMap (tagged f)

/-- Tokens for what the elements of an array literal contain. -/
def taggedElements (f : Expr → Option KeyCount) (es : List ArrayElement) : List Token :=
  (subexprsOfElements es).map fun x => (x.id, f x)

/-- Tokens for what the targets of a destructuring contain. -/
def taggedTargets (f : Expr → Option KeyCount) (ts : List ListTarget) : List Token :=
  (subexprsOfTargets ts).map fun x => (x.id, f x)

theorem subexprsOf_eq_flatMap (es : List Expr) : subexprsOf es = es.flatMap subexprs := by
  induction es with
  | nil => rfl
  | cons e rest ih => rw [subexprsOf, ih, List.flatMap_cons]

section

variable (f : Expr → Option KeyCount)

@[simp] theorem map_subexprsOf (es : List Expr) : (subexprsOf es).map (fun x => (x.id, f x)) = taggedAll f es := by
  rw [subexprsOf_eq_flatMap, List.map_flatMap]
  rfl

@[simp] theorem taggedAll_nil : taggedAll f [] = [] := rfl

@[simp] theorem taggedAll_cons (e : Expr) (rest : List Expr) :
    taggedAll f (e :: rest) = e.tagged f ++ taggedAll f rest := rfl

@[simp] theorem taggedAll_append (es es' : List Expr) :
    taggedAll f (es ++ es') = taggedAll f es ++ taggedAll f es' :=
  List.flatMap_append

section

variable (tag : ExprTag)

@[simp] theorem tagged_literal (v : Literal) : (literal tag v).tagged f = [(tag.id, f (literal tag v))] := rfl

@[simp] theorem tagged_var (name : String) : (var tag name).tagged f = [(tag.id, f (var tag name))] := rfl

@[simp] theorem tagged_constant (name : String) :
    (constant tag name).tagged f = [(tag.id, f (constant tag name))] := rfl

@[simp] theorem tagged_array (es : List ArrayElement) :
    (array tag es).tagged f = [(tag.id, f (array tag es))] ++ taggedElements f es := rfl

@[simp] theorem tagged_concat (es : List Expr) :
    (concat tag es).tagged f = [(tag.id, f (concat tag es))] ++ taggedAll f es := by
  rw [← map_subexprsOf]
  rfl

@[simp] theorem tagged_call (name : String) (es : List Expr) :
    (call tag name es).tagged f = [(tag.id, f (call tag name es))] ++ taggedAll f es := by
  rw [← map_subexprsOf]
  rfl

@[simp] theorem tagged_binary (op : BinaryOp) (l r : Expr) :
    (binary tag op l r).tagged f = [(tag.id, f (binary tag op l r))] ++ l.tagged f ++ r.tagged f :=
  congrArg ((tag.id, f (binary tag op l r)) :: ·) List.map_append

@[simp] theorem tagged_unary (op : UnaryOp) (e : Expr) :
    (unary tag op e).tagged f = [(tag.id, f (unary tag op e))] ++ e.tagged f := rfl

@[simp] theorem tagged_incDec (increment post : Bool) (e : Expr) :
    (incDec tag increment post e).tagged f = [(tag.id, f (incDec tag increment post e))] ++ e.tagged f := rfl

@[simp] theorem tagged_conditional (c a b : Expr) : (conditional tag c a b).tagged f =
    [(tag.id, f (conditional tag c a b))] ++ c.tagged f ++ a.tagged f ++ b.tagged f :=
  congrArg ((tag.id, f (conditional tag c a b)) :: ·)
    (List.map_append.trans (congrArg (· ++ b.tagged f) List.map_append))

@[simp] theorem tagged_shortcut (c b : Expr) :
    (shortcut tag c b).tagged f = [(tag.id, f (shortcut tag c b))] ++ c.tagged f ++ b.tagged f :=
  congrArg ((tag.id, f (shortcut tag c b)) :: ·) List.map_append

@[simp] theorem tagged_list (ts : List ListTarget) (v : Expr) :
    (list tag ts v).tagged f = [(tag.id, f (list tag ts v))] ++ taggedTargets f ts ++ v.tagged f :=
  congrArg ((tag.id, f (list tag ts v)) :: ·) List.map_append

@[simp] theorem tagged_item (c i : Expr) :
    (item tag c i).tagged f = [(tag.id, f (item tag c i))] ++ c.tagged f ++ i.tagged f :=
  congrArg ((tag.id, f (item tag c i)) :: ·) List.map_append

@[simp] theorem tagged_append (c : Expr) :
    (append tag c).tagged f = [(tag.id, f (append tag c))] ++ c.tagged f := rfl

@[simp] theorem tagged_assign (a b : Expr) :
    (assign tag a b).tagged f = [(tag.id, f (assign tag a b))] ++ a.tagged f ++ b.tagged f :=
  congrArg ((tag.id, f (assign tag a b)) :: ·) List.map_append

end

@[simp] theorem taggedElements_nil : taggedElements f [] = [] := rfl

@[simp] theorem taggedElements_plain (span : Span) (v : Expr) (rest : List ArrayElement) :
    taggedElements f (.plain span v :: rest) = v.tagged f ++ taggedElements f rest :=
  List.map_append

@[simp] theorem taggedElements_keyed (span : Span) (k v : Expr) (rest : List ArrayElement) :
    taggedElements f (.keyed span k v :: rest) = k.tagged f ++ v.tagged f ++ taggedElements f rest :=
  List.map_append.trans (congrArg (· ++ taggedElements f rest) List.map_append)

@[simp] theorem taggedTargets_nil : taggedTargets f [] = [] := rfl

@[simp] theorem taggedTargets_skip (rest : List ListTarget) :
    taggedTargets f (.skip :: rest) = taggedTargets f rest := rfl

@[simp] theorem taggedTargets_leaf (e : Expr) (rest : List ListTarget) :
    taggedTargets f (.leaf e :: rest) = e.tagged f ++ taggedTargets f rest :=
  List.map_append

@[simp] theorem taggedTargets_nested (ts rest : List ListTarget) :
    taggedTargets f (.nested ts :: rest) = taggedTargets f ts ++ taggedTargets f rest :=
  List.map_append

end

@[simp] theorem keys_withAccess (access : Access) (e : Expr) : (e.withAccess access).keys = e.keys := by
  cases e <;> rfl

@[simp] theorem tagged_withAccess (access : Access) (e : Expr) :
    (e.withAccess access).tagged keys = e.tagged keys := by
  cases e <;> simp [withAccess, withTag, Expr.tag, keys]

end Expr

/-- Tokens for the node that was found. -/
def Evaluation.tokens (c : Evaluation) : List Token :=
  c.node.tagged Expr.keys

namespace Evaluation

@[simp] theorem tokens_value (v : Literal) (e : Expr) : (value v e).tokens = e.tagged Expr.keys := rfl

@[simp] theorem tokens_residual (e : Expr) : (residual e).tokens = e.tagged Expr.keys := rfl

@[simp] theorem tokens_ofParts (e : Expr) (v : Option Literal) : (ofParts e v).tokens = e.tagged Expr.keys := by
  cases v <;> rfl

end Evaluation

namespace Analysis

open Pass (Ends)

/-- Where an analysis started: its setting, the numbers that there were, and how many had been handed out. -/
structure Ledger where
  cfg : Setting
  old : List Nat
  first : Nat

variable {α β : Type} {L : Ledger} {given given' rest left left' : List Token} {n n' n'' : Nat} {m : RuleMemory}

/-! ## Numbers in order -/

/-- The next number is greater, unless the numbering has come round. -/
theorem nodeId_succ (h : (n + 1) / UInt32.size = n / UInt32.size) : nodeId (n + 1) = nodeId n + 1 := by
  unfold nodeId UInt32.size at *
  omega

/-- The numbers that there were are below the next one, and the numbering has not come round since. -/
def Ledger.Steady (L : Ledger) (n : Nat) : Prop :=
  (∀ i ∈ L.old, i < nodeId L.first) ∧ n / UInt32.size = L.first / UInt32.size

/-- What has not come round by now had not done so before. -/
theorem Ledger.Steady.of_succ (h : L.Steady (n + 1)) (hle : L.first ≤ n) : L.Steady n := by
  obtain ⟨hold, hround⟩ := h
  refine ⟨hold, ?_⟩
  unfold UInt32.size at *
  omega

/-! ## Tokens that are true -/

/-- Each number is an old or a new one, and the tokens say what has been counted. -/
structure Ledger.Balance (L : Ledger) (tokens : List Token) (n : Nat) (m : RuleMemory) : Prop where
  given : ∀ token ∈ tokens, token.1 ∈ L.old ∨ ∃ k, L.first ≤ k ∧ k < n ∧ token.1 = nodeId k
  le : L.first ≤ n
  nodup : L.Steady n → (tokens.map Prod.fst).Nodup
  below : L.Steady n → ∀ token ∈ tokens, token.1 < nodeId n
  arrays : L.cfg.registry = .standard → (Token.arrays tokens).Nodup
  counted : L.cfg.registry = .standard → ∀ i k, (i, some k) ∈ tokens → m.keyCount (.node i) = k

namespace Ledger.Balance

theorem mono (h : L.Balance given n m) (hleft : ∀ token, left.count token ≤ given.count token) :
    L.Balance left n m := by
  obtain ⟨tokens, hperm, hsub⟩ := List.subperm_ext_iff.mpr fun token (_ : token ∈ left) => hleft token
  have hmem : ∀ token ∈ left, token ∈ given := fun token htoken => hsub.subset (hperm.mem_iff.mpr htoken)
  exact
    { given := fun token htoken => h.given token (hmem token htoken)
      le := h.le
      nodup := fun hsteady => ((hperm.map Prod.fst).nodup_iff).mp ((h.nodup hsteady).sublist (hsub.map Prod.fst))
      below := fun hsteady token htoken => h.below hsteady token (hmem token htoken)
      arrays := fun hstd =>
        (((hperm.filter _).map Prod.fst).nodup_iff).mp ((h.arrays hstd).sublist ((hsub.filter _).map Prod.fst))
      counted := fun hstd i k htoken => h.counted hstd i k (hmem _ htoken) }

/-- One node is new. -/
theorem fresh (h : L.Balance rest n m) : L.Balance (Token.new (nodeId n) :: rest) (n + 1) m where
  given := List.forall_mem_cons.mpr ⟨Or.inr ⟨n, h.le, Nat.lt_succ_self n, rfl⟩, fun token htoken =>
    (h.given token htoken).imp_right fun ⟨k, hle, hlt, heq⟩ => ⟨k, hle, Nat.lt_succ_of_lt hlt, heq⟩⟩
  le := Nat.le_succ_of_le h.le
  nodup hsteady := by
    have hsteady' := hsteady.of_succ h.le
    rw [List.map_cons, List.nodup_cons]
    refine ⟨fun hmem => ?_, h.nodup hsteady'⟩
    obtain ⟨token, htoken, hn⟩ := List.mem_map.mp hmem
    exact absurd hn (Nat.ne_of_lt (h.below hsteady' token htoken))
  below hsteady := by
    have hsteady' := hsteady.of_succ h.le
    rw [nodeId_succ (hsteady.2.trans hsteady'.2.symm)]
    exact List.forall_mem_cons.mpr
      ⟨Nat.lt_succ_self _, fun token htoken => Nat.lt_succ_of_lt (h.below hsteady' token htoken)⟩
  arrays := h.arrays
  counted hstd i k htoken := h.counted hstd i k ((List.mem_cons.mp htoken).resolve_left nofun)

/-- With another registry than the standard one only the numbers matter. -/
theorem of_numbers (h : L.Balance given n m) (hother : L.cfg.registry ≠ .standard)
    (hleft : left.map Prod.fst = given.map Prod.fst) : L.Balance left n m := by
  have hmem {P : Nat → Prop} (hP : ∀ token ∈ given, P token.1) : ∀ token ∈ left, P token.1 := by
    intro token htoken
    obtain ⟨token', htoken', heq⟩ := List.mem_map.mp (hleft ▸ List.mem_map_of_mem htoken)
    exact heq ▸ hP token' htoken'
  exact
    { given := hmem (P := fun i => i ∈ L.old ∨ ∃ k, L.first ≤ k ∧ k < n ∧ i = nodeId k) h.given
      le := h.le
      nodup := fun hsteady => hleft ▸ h.nodup hsteady
      below := fun hsteady => hmem (P := (· < nodeId n)) (h.below hsteady)
      arrays := fun hstd => absurd hstd hother
      counted := fun hstd => absurd hstd hother }

/-- Only the numbers and the keys matter. -/
theorem of_keys {m' : RuleMemory} (h : L.Balance given n m) (hkeys : m'.keys = m.keys) : L.Balance given n m' :=
  { h with
    counted := fun hstd i k htoken => by rw [← h.counted hstd i k htoken, RuleMemory.keyCount, hkeys]; rfl }

/-- One more key is counted. -/
theorem countKey {i : Nat} {k : KeyCount} (h : L.Balance ((i, some k) :: rest) n m) (isInteger : Bool)
    {home : Home ExprKind} (hhome : L.cfg.registry = .standard → home = .node i) :
    L.Balance ((i, some (k.add isInteger)) :: rest) n (m.countKey home isInteger) where
  given := List.forall_mem_cons.mpr (List.forall_mem_cons.mp h.given)
  le := h.le
  nodup := h.nodup
  below hsteady := List.forall_mem_cons.mpr (List.forall_mem_cons.mp (h.below hsteady))
  arrays := h.arrays
  counted hstd j k' htoken := by
    rw [hhome hstd]
    rcases List.mem_cons.mp htoken with heq | hrest
    · cases heq
      rw [RuleMemory.keyCount_countKey_self, h.counted hstd i k List.mem_cons_self]
    · have hother : (.node i : Home ExprKind) ≠ .node j := by
        intro heq
        obtain rfl := Home.node.inj heq
        have hmem : i ∈ Token.arrays rest :=
          List.mem_map_of_mem (f := Prod.fst) (List.mem_filter.mpr ⟨hrest, rfl⟩)
        exact (List.nodup_cons.mp (h.arrays hstd)).1 hmem
      rw [RuleMemory.keyCount_countKey_of_ne m hother, h.counted hstd j k' (List.mem_cons_of_mem _ hrest)]

end Ledger.Balance

/-- New nodes come in the place of given ones. -/
def Renumbers (L : Ledger) (given : List Token) (n : Nat) (left : List Token) (n' : Nat) : Prop :=
  ∀ rest m, L.Balance (given ++ rest) n m → L.Balance (left ++ rest) n' m

namespace Renumbers

/-- Nothing is new, and something may be dropped. -/
theorem of_count (h : ∀ token, left.count token ≤ given.count token) : Renumbers L given n left n :=
  fun rest _ hm => hm.mono fun token => by
    have hcount := h token
    simp only [List.count_append]
    omega

/-- One node is new. -/
theorem fresh (L : Ledger) (given : List Token) (n : Nat) : Renumbers L given n [Token.new (nodeId n)] (n + 1) :=
  fun rest _ hm => (hm.mono fun token => by
    show rest.count token ≤ _
    simp only [List.count_append]
    omega).fresh

/-- What one step leaves is given to the next one. -/
theorem trans (h : Renumbers L given n left n') (rest : List Token) (h' : Renumbers L (left ++ rest) n' left' n'')
    (hgiven : ∀ token, (given ++ rest).count token ≤ given'.count token) : Renumbers L given' n left' n'' := by
  intro others m hm
  have hfirst := h (rest ++ others) m (hm.mono fun token => by
    have hcount := hgiven token
    simp only [List.count_append] at hcount ⊢
    omega)
  rw [← List.append_assoc] at hfirst
  exact h' others m hfirst

/-- What a step is not handed stays as it is. -/
theorem frame (h : Renumbers L given n left n') (rest : List Token) :
    Renumbers L (rest ++ given) n (rest ++ left) n' := by
  intro others m hm
  refine (h (rest ++ others) m (hm.mono fun token => ?_)).mono fun token => ?_
  all_goals simp only [List.count_append]; omega

theorem mono (h : Renumbers L given n left n') (hgiven : ∀ token, given.count token ≤ given'.count token)
    (hleft : ∀ token, left'.count token ≤ left.count token) : Renumbers L given' n left' n' := by
  intro others m hm
  refine (h others m (hm.mono fun token => ?_)).mono fun token => ?_
  · have hcount := hgiven token
    simp only [List.count_append]
    omega
  · have hcount := hleft token
    simp only [List.count_append]
    omega

end Renumbers

/-! ## Computations -/

/-- A computation can be done with some tokens, and leaves others. -/
def Numbers (L : Ledger) (given : List Token) (x : Analyze α) (left : α → List Token) : Prop :=
  ∀ rest s, L.Balance (given ++ rest) s.nextId s.memory →
    Ends x s (fun a t => L.Balance (left a ++ rest) t.nextId t.memory) fun _ => True

/-- A step that makes no node and counts nothing. -/
def Silent (x : Analyze α) : Prop :=
  ∀ s, (x s).2.nextId = s.nextId ∧ (x s).2.memory.keys = s.memory.keys

namespace Numbers

variable {x y : Analyze α} {out : α → List Token} {out' : β → List Token}

theorem pure {a : α} (h : ∀ token, (out a).count token ≤ given.count token) :
    Numbers L given (Pure.pure a) out :=
  fun rest s hs => .pure (Renumbers.of_count h rest s.memory hs)

/-- A step is handed some of the tokens, and what it leaves goes to the next step with the others. -/
theorem bind {f : α → Analyze β} (hx : Numbers L given x out) (rest : List Token)
    (hf : ∀ a, Numbers L (out a ++ rest) (f a) out')
    (hgiven : ∀ token, (given ++ rest).count token ≤ given'.count token) :
    Numbers L given' (x >>= f) out' := by
  intro others s hs
  refine (hx (rest ++ others) s (hs.mono fun token => ?_)).bind fun a t ht => ?_
  · have hcount := hgiven token
    simp only [List.count_append] at hcount ⊢
    omega
  · rw [← List.append_assoc] at ht
    exact hf a others t ht

theorem mono (h : Numbers L given x out) (hgiven : ∀ token, given.count token ≤ given'.count token) :
    Numbers L given' x out :=
  fun rest s hs => h rest s (hs.mono fun token => by
    have hcount := hgiven token
    simp only [List.count_append]
    omega)

theorem transform {f : State → α × State} (hmemory : ∀ s, (f s).2.memory = s.memory)
    (h : ∀ s, Renumbers L given s.nextId (out (f s).1) (f s).2.nextId) :
    Numbers L given (Pass.transform f) out :=
  fun rest s hs => .transform (by rw [hmemory]; exact h s rest s.memory hs)

theorem silent (h : Silent x) : Numbers L [] x fun _ => [] := by
  intro rest s hs
  obtain ⟨hnext, hkeys⟩ := h s
  refine .intro (fun a t hrun => ?_) fun _ _ _ => trivial
  rw [hrun] at hnext hkeys
  rw [hnext]
  exact hs.of_keys hkeys

/-- A step that makes no node and counts nothing, in front of another one. -/
theorem after {f : α → Analyze β} (h : Silent x) (hf : ∀ a, Numbers L given (f a) out') :
    Numbers L given (x >>= f) out' :=
  (silent h).bind given hf fun _ => Nat.le_refl _

/-- Such a step may be left out. -/
theorem afterIf {c : Prop} [Decidable c] {x : Analyze Unit} {f : Unit → Analyze β} (h : Silent x)
    (hf : ∀ a, Numbers L given (f a) out') : Numbers L given (if c then x >>= f else f ()) out' := by
  split
  · exact after h hf
  · exact hf ()

theorem ite {c : Prop} [Decidable c] (hx : Numbers L given x out) (hy : Numbers L given y out) :
    Numbers L given (if c then x else y) out := by
  split
  · exact hx
  · exact hy

theorem ensuring {f : State → State} (h : Numbers L given x out) (hf : Silent (Pass.update f)) :
    Numbers L given (x.ensuring f) out := by
  intro rest s hs
  refine .ensuring ((h rest s hs).mono fun a t ht => ?_)
  obtain ⟨hnext, hkeys⟩ := hf t
  have hnext' : (f t).nextId = t.nextId := hnext
  rw [hnext']
  exact ht.of_keys hkeys

theorem inConditional (h : Numbers L given x out) : Numbers L given (inConditional x) out :=
  .after (fun _ => ⟨rfl, rfl⟩) fun _ => h.ensuring fun _ => ⟨rfl, rfl⟩

/-- A step that leaves nothing of what it is handed. -/
theorem drop (h : Numbers L given x out) : Numbers L given (x >>= fun _ => Pure.pure ()) fun _ => [] :=
  h.bind [] (fun _ => pure fun _ => Nat.zero_le _) fun token => by simp

/-- Something that may fail is only passed on after something else has been done. -/
theorem attempt {γ : Type} {z : Analyze γ} {f : α → γ → Analyze β}
    (h : Numbers L given (do let a ← x; let c ← z; f a c) out') :
    Numbers L given (do let r ← x.attempt; let c ← z; let a ← Pass.ofExcept r; f a c) out' := by
  intro rest s hs
  have hrun := h rest s hs
  unfold Ends at hrun ⊢
  rw [Pass.bind_apply, Pass.attempt_apply]
  rw [Pass.bind_apply] at hrun
  rcases hx : x s with ⟨r, t⟩
  rw [hx] at hrun
  cases r with
  | ok a => exact hrun
  | error e =>
    dsimp only
    rw [Pass.bind_apply]
    rcases z t with ⟨r, u⟩
    cases r <;> trivial

/-- Something that may fail is tried, and its failure is passed on. -/
theorem attempt_last {f : α → Analyze β} (h : Numbers L given (x >>= f) out') :
    Numbers L given (do let r ← x.attempt; let a ← Pass.ofExcept r; f a) out' := by
  intro rest s hs
  have hrun := h rest s hs
  unfold Ends at hrun ⊢
  rw [Pass.bind_apply, Pass.attempt_apply]
  rw [Pass.bind_apply] at hrun
  rcases hx : x s with ⟨r, t⟩
  rw [hx] at hrun
  cases r with
  | ok a => exact hrun
  | error e => trivial

end Numbers

end Analysis
end PhpLowering
