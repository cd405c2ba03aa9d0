import PhpLowering.Code.Routine

/-!
# Routines only grow

Whatever is done to a routine, what it holds already stays: instructions, constants and
regions keep their places, and a label that is marked keeps its position.  A label that is
not marked yet can only get a position at or behind the end of the code at hand.

`Grows r r'` collects this.  It is what lets a fact about a routine in the middle of its
emission be used at the end.
-/

namespace PhpLowering
namespace Routine

/-- What a routine knows of a label: `none` if it has no such label, `some none` if the label is not
marked. -/
def mark? (r : Routine) (l : Label) : Option (Option Nat) :=
  r.labels[l.index]?

theorem labelPosition?_eq (r : Routine) (l : Label) : r.labelPosition? l = (r.mark? l).join := rfl

/-- The second routine is the first one after some more work. -/
structure Grows (r r' : Routine) : Prop where
  position : r.position ≤ r'.position
  code : ∀ {pc : Nat} {i : Instruction}, r.code[pc]? = some i → r'.code[pc]? = some i
  constants : ∀ {k : Nat} {v : Literal}, r.constants[k]? = some v → r'.constants[k]? = some v
  marked : ∀ {l : Label} {p : Nat}, r.mark? l = some (some p) → r'.mark? l = some (some p)
  unmarked : ∀ {l : Label}, r.mark? l = some none →
    r'.mark? l = some none ∨ ∃ p, r.position ≤ p ∧ r'.mark? l = some (some p)
  regions : ∀ {k : Nat} {region : Region},
    r.regions[k]? = some region → r'.regions[k]? = some region

namespace Grows

variable {r r' r'' : Routine}

/-- Work on anything else than the code, the constants, the labels and the regions. -/
theorem of_eq (hcode : r'.code = r.code) (hconstants : r'.constants = r.constants)
    (hlabels : r'.labels = r.labels) (hregions : r'.regions = r.regions) : r.Grows r' where
  position := Nat.le_of_eq (congrArg Array.size hcode.symm)
  code h := by rwa [hcode]
  constants h := by rwa [hconstants]
  marked h := by unfold mark? at h ⊢; rwa [hlabels]
  unmarked h := by unfold mark? at h ⊢; rw [hlabels]; exact Or.inl h
  regions h := by rwa [hregions]

theorem refl (r : Routine) : r.Grows r :=
  of_eq rfl rfl rfl rfl

theorem trans (h : r.Grows r') (h' : r'.Grows r'') : r.Grows r'' where
  position := Nat.le_trans h.position h'.position
  code hi := h'.code (h.code hi)
  constants hv := h'.constants (h.constants hv)
  marked hl := h'.marked (h.marked hl)
  unmarked hl := by
    rcases h.unmarked hl with hl' | ⟨p, hp, hl'⟩
    · rcases h'.unmarked hl' with hl'' | ⟨p, hp, hl''⟩
      · exact Or.inl hl''
      · exact Or.inr ⟨p, Nat.le_trans h.position hp, hl''⟩
    · exact Or.inr ⟨p, hp, h'.marked hl'⟩
  regions hk := h'.regions (h.regions hk)

/-- A label stays a label. -/
theorem isSome_mark? (h : r.Grows r') {l : Label} (hl : (r.mark? l).isSome) :
    (r'.mark? l).isSome := by
  obtain ⟨o, ho⟩ := Option.isSome_iff_exists.mp hl
  cases o with
  | none =>
    rcases h.unmarked ho with hl' | ⟨p, -, hl'⟩
    · rw [hl']; rfl
    · rw [hl']; rfl
  | some p => rw [h.marked ho]; rfl

end Grows

/-! ## One step of growth for every operation -/

private theorem getElem?_push_of_some {α : Type} {xs : Array α} {x y : α} {k : Nat}
    (h : xs[k]? = some x) : (xs.push y)[k]? = some x := by
  obtain ⟨hk, -⟩ := Array.getElem?_eq_some_iff.mp h
  rw [Array.getElem?_push_lt hk, ← Array.getElem?_eq_getElem hk, h]

theorem grows_push (i : Instruction) (r : Routine) : r.Grows (r.push i) where
  position := by simp [position, push]
  code h := getElem?_push_of_some h
  constants h := h
  marked h := h
  unmarked h := Or.inl h
  regions h := h

theorem grows_addConstant (v : Literal) (r : Routine) : r.Grows (addConstant v r).2 := by
  unfold addConstant
  split
  · exact .refl r
  · split
    · exact
        { position := Nat.le_refl _
          code := id
          constants := getElem?_push_of_some
          marked := id
          unmarked := Or.inl
          regions := id }
    · exact .refl r

theorem grows_defineLabel (r : Routine) : r.Grows r.defineLabel.2 where
  position := Nat.le_refl _
  code := id
  constants := id
  marked h := getElem?_push_of_some h
  unmarked h := Or.inl (getElem?_push_of_some h)
  regions := id

theorem grows_markLabel (l : Label) (r : Routine) : r.Grows (markLabel l r).2 := by
  unfold markLabel
  split
  · rename_i hl
    have hbound : l.index < r.labels.size := (Array.getElem?_eq_some_iff.mp hl).1
    refine
      { position := Nat.le_refl _, code := id, constants := id, marked := ?_, unmarked := ?_,
        regions := id }
    · intro l' p h
      have hne : l.index ≠ l'.index := by
        intro heq
        rw [mark?, ← heq, hl] at h
        exact nomatch h
      simpa [mark?, Array.getElem?_setIfInBounds, hne] using h
    · intro l' h
      by_cases heq : l.index = l'.index
      · refine Or.inr ⟨r.position, Nat.le_refl _, ?_⟩
        have hbound' : l'.index < r.labels.size := heq ▸ hbound
        simp [mark?, heq, hbound']
      · exact Or.inl (by simpa [mark?, Array.getElem?_setIfInBounds, heq] using h)
  · exact .refl r

theorem grows_declareTemp (r : Routine) : r.Grows (declareTemp r).2 := by
  unfold declareTemp
  split
  · exact .of_eq rfl rfl rfl rfl
  · split
    · exact .of_eq rfl rfl rfl rfl
    · exact .refl r

theorem grows_returnTemp (t : Temp) (r : Routine) : r.Grows (r.returnTemp t) := by
  unfold returnTemp
  split
  · exact .refl r
  · exact .of_eq rfl rfl rfl rfl

theorem grows_beginTry (r : Routine) : r.Grows r.beginTry.2 :=
  r.grows_defineLabel.trans (.of_eq rfl rfl rfl rfl)

theorem grows_beginHandler (kind : HandlerKind) (r : Routine) :
    r.Grows (beginHandler kind r).2 := by
  unfold beginHandler
  split
  · exact .refl r
  · split
    · exact .refl r
    · exact (r.grows_push _).trans (.of_eq rfl rfl rfl rfl)

theorem grows_pushRegion (region : Region) (outer : List OpenRegion) (r : Routine) :
    r.Grows { r with openRegions := outer, regions := r.regions.push region } where
  position := Nat.le_refl _
  code := id
  constants := id
  marked := id
  unmarked := Or.inl
  regions := getElem?_push_of_some

theorem grows_endRegion (r : Routine) : r.Grows (endRegion r).2 := by
  unfold endRegion
  split
  · exact .refl r
  · split
    · exact .refl r
    · exact ((r.grows_push _).trans (grows_pushRegion _ _ _)).trans (grows_markLabel _ _)

end Routine
end PhpLowering
