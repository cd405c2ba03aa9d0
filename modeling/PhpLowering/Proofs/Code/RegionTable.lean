import Mathlib.Data.List.Chain
import PhpLowering.Proofs.Code.Change
import PhpLowering.Proofs.Lowering.Tries

/-!
# The table of exception regions

Whoever calls a chunk, in whatever order, and whether the calls are accepted or not: the regions that are
recorded for a routine are well formed.  The blocks of a region are a row (`Row`): they lie one behind
another, and none of them is empty.  Two regions lie apart, or the later one has the earlier one in one of
its blocks.

To see this, the regions that are still growing have to be looked at as well.  `Routine.Stacked` says how
they lie: each of them was begun in the growing block of the one around it, and a region that is recorded
ended before a growing one began, or is in one of its blocks, possibly in the growing one.
-/

namespace PhpLowering

/-- Blocks that lie one behind another between two positions, none of them empty. -/
def Row : Nat → List (Nat × Nat) → Nat → Prop
  | p, [], q => p = q
  | p, b :: bs, q => b.1 = p ∧ b.1 < b.2 ∧ Row b.2 bs q

namespace Row

variable {p q s : Nat} {bs bs' : List (Nat × Nat)}

theorem append (h : Row p bs q) (h' : Row q bs' s) : Row p (bs ++ bs') s := by
  induction bs generalizing p with
  | nil =>
    obtain rfl := h
    exact h'
  | cons b bs ih => exact ⟨h.1, h.2.1, ih h.2.2⟩

theorem snoc (h : Row p bs q) (hlt : q < s) : Row p (bs ++ [(q, s)]) s :=
  h.append ⟨rfl, hlt, rfl⟩

theorem lt_of_mem (h : Row p bs q) {b : Nat × Nat} (hb : b ∈ bs) : b.1 < b.2 := by
  induction bs generalizing p with
  | nil => exact nomatch hb
  | cons first bs ih =>
    rcases List.mem_cons.mp hb with rfl | hb
    · exact h.2.1
    · exact ih h.2.2 hb

theorem isChain (h : Row p bs q) : bs.IsChain fun b b' => b.2 = b'.1 := by
  induction bs generalizing p with
  | nil => exact .nil
  | cons b bs ih =>
    cases bs with
    | nil => exact .singleton b
    | cons b' bs => exact .cons_cons h.2.2.1.symm (ih h.2.2)

theorem getLast?_eq (h : Row p bs q) {b : Nat × Nat} (hb : bs.getLast? = some b) : b.2 = q := by
  induction bs generalizing p with
  | nil => exact nomatch hb
  | cons first bs ih =>
    cases bs with
    | nil =>
      obtain rfl := Option.some.inj hb
      exact h.2.2
    | cons b' bs => exact ih h.2.2 (List.getLast?_cons_cons.symm.trans hb)

end Row

/-- A region as a virtual machine takes it for granted. -/
structure Region.WellFormed (R : Region) : Prop where
  guarded : R.tryStart < R.tryStop
  handlers : R.handlers ≠ []
  first : ∀ h, R.handlers.head? = some h → h.start = R.tryStop
  adjacent : R.handlers.IsChain fun h h' => h.stop = h'.start
  nonempty : ∀ h ∈ R.handlers, h.start < h.stop
  last : ∀ h, R.handlers.getLast? = some h → h.stop = R.stop
  /-- Nothing comes after a cleanup block. -/
  cleanup : ∀ h ∈ R.handlers.dropLast, h.kind ≠ .cleanup

/-- The earlier one of two regions ends before the later one begins, or lies in one of its blocks. -/
def Region.Precedes (R R' : Region) : Prop :=
  R.stop ≤ R'.tryStart ∨ R'.Holds R

namespace Region

variable {R : Region}

/-- The blocks of a region that is well formed are a row, and the other way round. -/
theorem wellFormed_of_row (hrow : Row R.tryStart R.blocks R.stop) (hhandlers : R.handlers ≠ [])
    (hcleanup : ∀ h ∈ R.handlers.dropLast, h.kind ≠ .cleanup) : R.WellFormed where
  guarded := hrow.2.1
  handlers := hhandlers
  first h hh := by
    obtain ⟨rest, hrest⟩ := List.head?_eq_some_iff.mp hh
    have hnext := hrow.2.2
    rw [hrest] at hnext
    exact hnext.1
  adjacent := (List.isChain_map _).mp hrow.2.2.isChain
  nonempty h hh := hrow.2.2.lt_of_mem (List.mem_map_of_mem hh)
  last h hh := hrow.2.2.getLast?_eq (by rw [List.getLast?_map, hh]; rfl)
  cleanup := hcleanup

end Region

/-! ## Regions that grow -/

/-- A growing region whose complete blocks are a row up to the growing one. -/
structure OpenRegion.Sound (o : OpenRegion) : Prop extends o.Proper where
  row : Row o.tryStart o.blocks o.blockStart
  cleanup : ∀ h ∈ o.handlers, h.kind ≠ .cleanup

/-- Where a recorded region lies when it is seen from a growing one. -/
def OpenRegion.Places (o : OpenRegion) (R : Region) : Prop :=
  R.stop ≤ o.tryStart ∨ (∃ b ∈ o.blocks, b.1 ≤ R.tryStart ∧ R.stop ≤ b.2) ∨ o.blockStart ≤ R.tryStart

namespace OpenRegion

variable {o : OpenRegion} {R : Region} {q : Nat} {kind : HandlerKind}

theorem sound_begin (q : Nat) (l : Label) : (begin q l).Sound where
  toProper := proper_begin q l
  row := rfl
  cleanup := nofun

/-- No cleanup block is among the complete handlers after one that is not is closed. -/
theorem Sound.cleanup_close (h : o.Sound) (hblock : o.block ≠ .handler .cleanup) :
    ∀ h ∈ (o.close q).handlers, h.kind ≠ .cleanup := by
  unfold close
  split
  · exact h.cleanup
  · rename_i kind hkind
    refine List.forall_mem_cons.mpr ⟨fun heq => hblock ?_, h.cleanup⟩
    rw [hkind]
    exact congrArg Block.handler heq

theorem Sound.next (h : o.Sound) (hblock : o.block ≠ .handler .cleanup) (hlt : o.blockStart < q) :
    ((o.close q).enter kind q).Sound where
  toProper := h.toProper.next
  row := by
    show Row (o.close q).tryStart (o.close q).blocks q
    rw [tryStart_close, h.blocks_close]
    exact h.row.snoc hlt
  cleanup := h.cleanup_close hblock

/-- A region that is complete has the blocks that grew. -/
theorem Sound.wellFormed (h : o.Sound) (hblock : o.block = .handler kind) (hlt : o.blockStart < q) :
    ((o.close q).complete q).WellFormed := by
  have hhandlers : (o.close q).handlers = ⟨kind, o.blockStart, q⟩ :: o.handlers := by
    unfold close
    rw [hblock]
  refine Region.wellFormed_of_row ?_ ?_ ?_
  · show Row (o.close q).tryStart ((o.close q).complete q).blocks q
    rw [tryStart_close, h.blocks_complete]
    exact h.row.snoc hlt
  · show (o.close q).handlers.reverse ≠ []
    rw [hhandlers, List.reverse_cons]
    exact List.append_ne_nil_of_right_ne_nil _ nofun
  · show ∀ h ∈ (o.close q).handlers.reverse.dropLast, h.kind ≠ .cleanup
    rw [hhandlers, List.reverse_cons, List.dropLast_concat]
    exact fun h' hh' => h.cleanup h' (List.mem_reverse.mp hh')

/-- What lay in the growing block lies in a complete one when that block is closed. -/
theorem Places.closed (h : o.Places R) (hstop : R.stop ≤ q) :
    R.stop ≤ o.tryStart ∨ ∃ b ∈ o.blocks ++ [(o.blockStart, q)], b.1 ≤ R.tryStart ∧ R.stop ≤ b.2 := by
  rcases h with h | ⟨b, hb, h⟩ | h
  · exact Or.inl h
  · exact Or.inr ⟨b, List.mem_append_left _ hb, h⟩
  · exact Or.inr ⟨_, List.mem_append_right _ List.mem_cons_self, h, hstop⟩

theorem Places.next (h : o.Places R) (hproper : o.Proper) (hstop : R.stop ≤ q) :
    ((o.close q).enter kind q).Places R := by
  show R.stop ≤ (o.close q).tryStart ∨
    (∃ b ∈ (o.close q).blocks, b.1 ≤ R.tryStart ∧ R.stop ≤ b.2) ∨ q ≤ R.tryStart
  rw [tryStart_close, hproper.blocks_close, ← or_assoc]
  exact Or.inl (h.closed hstop)

theorem Places.complete (h : o.Places R) (hproper : o.Proper) (hstop : R.stop ≤ q) :
    R.Precedes ((o.close q).complete q) := by
  show R.stop ≤ (o.close q).tryStart ∨ ∃ b ∈ ((o.close q).complete q).blocks, _
  rw [tryStart_close, hproper.blocks_complete]
  exact h.closed hstop

end OpenRegion

/-! ## The regions of a routine -/

namespace Routine

/-- The recorded regions are well formed, each of them lies apart from the later ones or in a block of
them, and every instruction has a place in the source. -/
structure HasRegionTable (r : Routine) : Prop where
  wellFormed : ∀ R ∈ r.regions, R.WellFormed
  pairwise : r.regions.toList.Pairwise Region.Precedes
  spans : r.spans.size = r.code.size

/-- How the recorded regions and the growing ones lie. -/
structure Stacked (r : Routine) : Prop extends r.HasRegionTable where
  ended : ∀ R ∈ r.regions, R.stop ≤ r.position
  sound : ∀ o ∈ r.openRegions, o.Sound
  begun : ∀ o ∈ r.openRegions, o.blockStart ≤ r.position
  nested : r.openRegions.Pairwise fun o outer => outer.blockStart ≤ o.tryStart
  places : ∀ o ∈ r.openRegions, ∀ R ∈ r.regions, o.Places R

variable {r r' : Routine} {o : OpenRegion} {outer : List OpenRegion} {kind : HandlerKind}

/-- Only the regions, the number of instructions and the number of their places count. -/
theorem Stacked.congr (h : r.Stacked) (hposition : r'.position = r.position)
    (hspans : r'.spans.size = r.spans.size) (hregions : r'.regions = r.regions)
    (hopened : r'.openRegions = r.openRegions) : r'.Stacked where
  wellFormed := hregions ▸ h.wellFormed
  pairwise := hregions ▸ h.pairwise
  spans := hspans.trans (h.spans.trans hposition.symm)
  ended := by rw [hregions, hposition]; exact h.ended
  sound := hopened ▸ h.sound
  begun := by rw [hopened, hposition]; exact h.begun
  nested := hopened ▸ h.nested
  places := by rw [hopened, hregions]; exact h.places

theorem Stacked.push (h : r.Stacked) (i : Instruction) : (r.push i).Stacked := by
  have hposition : r.position ≤ (r.push i).position := by
    rw [position_push]
    exact Nat.le_succ _
  exact {
    wellFormed := h.wellFormed
    pairwise := h.pairwise
    spans := by
      show (r.spans.push _).size = (r.code.push i).size
      rw [Array.size_push, Array.size_push, h.spans]
    ended := fun R hR => Nat.le_trans (h.ended R hR) hposition
    sound := h.sound
    begun := fun o ho => Nat.le_trans (h.begun o ho) hposition
    nested := h.nested
    places := h.places }

theorem Stacked.markLabel (h : r.Stacked) (l : Label) : (r.markLabel l).2.Stacked := by
  unfold Routine.markLabel
  split <;> exact h.congr rfl rfl rfl rfl

/-- A region is begun in the growing block of the one around it, behind all that is recorded. -/
theorem Stacked.beginTry (h : r.Stacked) : r.beginTry.2.Stacked where
  wellFormed := h.wellFormed
  pairwise := h.pairwise
  spans := h.spans
  ended := h.ended
  sound := List.forall_mem_cons.mpr ⟨OpenRegion.sound_begin .., h.sound⟩
  begun := List.forall_mem_cons.mpr ⟨Nat.le_refl _, h.begun⟩
  nested := List.pairwise_cons.mpr ⟨h.begun, h.nested⟩
  places := List.forall_mem_cons.mpr ⟨fun R hR => Or.inl (h.ended R hR), h.places⟩

/-- The innermost region that grows, with an instruction at the end of its growing block. -/
theorem Stacked.beginHandler (h : r.Stacked) (kind : HandlerKind) : (r.beginHandler kind).2.Stacked := by
  unfold Routine.beginHandler
  split
  · exact h
  · rename_i o outer hopened
    split
    · exact h
    · rename_i hblock
      have hpush := h.push (.leave o.endLabel)
      have hlt : o.blockStart < (r.push (.leave o.endLabel)).position := by
        rw [position_push]
        exact Nat.lt_succ_of_le (h.begun o (hopened ▸ List.mem_cons_self))
      obtain ⟨hsound, hsounds⟩ := List.forall_mem_cons.mp (hopened ▸ hpush.sound)
      obtain ⟨hplaces, houter⟩ := List.forall_mem_cons.mp (hopened ▸ hpush.places)
      obtain ⟨hnested, hrest⟩ := List.pairwise_cons.mp (hopened ▸ hpush.nested)
      exact {
        wellFormed := hpush.wellFormed
        pairwise := hpush.pairwise
        spans := hpush.spans
        ended := hpush.ended
        sound := List.forall_mem_cons.mpr ⟨hsound.next hblock hlt, hsounds⟩
        begun := List.forall_mem_cons.mpr
          ⟨Nat.le_refl _, (List.forall_mem_cons.mp (hopened ▸ hpush.begun)).2⟩
        nested := List.pairwise_cons.mpr
          ⟨fun o' ho' => Nat.le_trans (hnested o' ho') (Nat.le_of_eq (o.tryStart_close _).symm), hrest⟩
        places := List.forall_mem_cons.mpr
          ⟨fun R hR => (hplaces R hR).next hsound.toProper (hpush.ended R hR), houter⟩ }

/-- The innermost region that grows becomes the last one that is recorded. -/
theorem Stacked.complete (h : r.Stacked) (hopened : r.openRegions = o :: outer)
    (hblock : o.block = .handler kind) (hlt : o.blockStart < r.position) :
    Stacked { r with
      openRegions := outer
      regions := r.regions.push ((o.close r.position).complete r.position) } := by
  obtain ⟨hsound, hsounds⟩ := List.forall_mem_cons.mp (hopened ▸ h.sound)
  obtain ⟨hplaces, houter⟩ := List.forall_mem_cons.mp (hopened ▸ h.places)
  obtain ⟨hnested, hrest⟩ := List.pairwise_cons.mp (hopened ▸ h.nested)
  exact {
    wellFormed := Array.forall_mem_push.mpr ⟨hsound.wellFormed hblock hlt, h.wellFormed⟩
    pairwise := by
      rw [Array.toList_push, List.pairwise_append]
      refine ⟨h.pairwise, List.pairwise_singleton .., fun R hR R' hR' => ?_⟩
      obtain rfl := List.mem_singleton.mp hR'
      have hR := Array.mem_toList_iff.mp hR
      exact (hplaces R hR).complete hsound.toProper (h.ended R hR)
    spans := h.spans
    ended := Array.forall_mem_push.mpr ⟨Nat.le_refl _, h.ended⟩
    sound := hsounds
    begun := (List.forall_mem_cons.mp (hopened ▸ h.begun)).2
    nested := hrest
    places := fun o' ho' => Array.forall_mem_push.mpr
      ⟨Or.inr (Or.inr (Nat.le_trans (hnested o' ho') (Nat.le_of_eq (o.tryStart_close _).symm))), houter o' ho'⟩ }

theorem Stacked.endRegion (h : r.Stacked) : r.endRegion.2.Stacked := by
  unfold Routine.endRegion
  split
  · exact h
  · rename_i o outer hopened
    split
    · exact h
    · rename_i kind hblock
      refine Stacked.markLabel (Stacked.complete (h.push _) hopened hblock ?_) _
      rw [position_push]
      exact Nat.lt_succ_of_le (h.begun o (hopened ▸ List.mem_cons_self))

/-- **Every operation leaves the regions of a routine in order.** -/
theorem Stacked.operation {α : Type} {f : Routine → α × Routine} (hf : Operation f) (h : r.Stacked) :
    (f r).2.Stacked := by
  cases hf with
  | emit i =>
    unfold Routine.emit
    split
    · split
      · exact h.push i
      · exact h
    · exact h.push i
  | addConstant v =>
    unfold Routine.addConstant
    split
    · exact h
    · split
      · exact h.congr rfl rfl rfl rfl
      · exact h
  | markLabel l => exact h.markLabel l
  | declareTemp =>
    unfold Routine.declareTemp
    split
    · exact h.congr rfl rfl rfl rfl
    · split
      · exact h.congr rfl rfl rfl rfl
      · exact h
  | returnTemp t =>
    dsimp only
    unfold Routine.returnTemp
    split
    · exact h
    · exact h.congr rfl rfl rfl rfl
  | beginTry => exact h.beginTry
  | beginHandler kind => exact h.beginHandler kind
  | endRegion => exact h.endRegion
  | defineLabel | sequencePoint => exact h.congr rfl rfl rfl rfl

/-- A routine without code has no regions. -/
theorem stacked_of_isEmpty (hcode : r.code = #[]) (hspans : r.spans = #[]) (hregions : r.regions = #[])
    (hopened : r.openRegions = []) : r.Stacked where
  wellFormed := by rw [hregions]; nofun
  pairwise := by rw [hregions]; exact .nil
  spans := by rw [hcode, hspans]; rfl
  ended := by rw [hregions]; nofun
  sound := by rw [hopened]; nofun
  begun := by rw [hopened]; nofun
  nested := by rw [hopened]; exact .nil
  places := by rw [hopened]; nofun

end Routine

namespace Chunk

open Sink (Call)

/-- **The tables of regions are well formed after any calls**, in any order, and whether they are accepted
or not. -/
theorem regionTables_after (name : String) (filePath : Option String) (tempLimit : Option Nat)
    (calls : List Call) :
    (Sink.after (Chunk.new name filePath tempLimit) calls).Every Routine.HasRegionTable := by
  have hnew : (Chunk.new name filePath tempLimit).Every Routine.Stacked :=
    ⟨Routine.stacked_of_isEmpty rfl rfl rfl rfl, nofun, nofun⟩
  have hstacked := hnew.after (fun _ _ => Routine.stacked_of_isEmpty rfl rfl rfl rfl)
    (fun hf h => h.operation hf) calls
  exact ⟨hstacked.main.toHasRegionTable, fun r hr => (hstacked.functions r hr).toHasRegionTable,
    fun r hr => (hstacked.pending r hr).toHasRegionTable⟩

/-- A `try` with a handler and a cleanup block, and calls in between that are refused. -/
example : (Sink.after (Chunk.new "main" none none)
    [.beginCatch "E", .beginTry, .endRegion, .emit .nop, .beginCatch "E", .emit .pop, .beginFinally,
      .beginCatch "F", .emit .nop, .endRegion, .endRegion]).main.regions =
      #[⟨0, 2, [⟨.catching "E", 2, 4⟩, ⟨.cleanup, 4, 6⟩], 6⟩] := by
  decide

end Chunk
end PhpLowering
