/-
  TermVM.Proofs.Outline.Mapping

  Changing the instructions of an outline one by one.

  A change that leaves jumps and dispatches alone commutes with layout: where
  an instruction stands depends on sizes only, and positions are written into
  jumps and dispatches only.
-/
import TermVM.Proofs.Outline.Basic

namespace TermVM.Outline

open Codegen

mutual

/-- An outline with its straight-line instructions changed. -/
def map (f : Instr → Instr) : Outline → Outline
  | nil => nil
  | op i => op (f i)
  | seq first second => seq (first.map f) (second.map f)
  | dispatch head alternatives => dispatch head (mapAlternatives f alternatives)

/-- Alternatives with their straight-line instructions changed. -/
def mapAlternatives (f : Instr → Instr) : List (Nat × Outline) → List (Nat × Outline)
  | [] => []
  | (fields, o) :: rest => (fields, o.map f) :: mapAlternatives f rest

end

/-- A change of instructions leaves those alone that positions are written into. -/
structure Steady (f : Instr → Instr) : Prop where
  jump : ∀ target, f (jumpTo target) = jumpTo target
  filled : ∀ (head : CaseHead) (alts : List Alternative),
    f (filled head.instr alts) = Outline.filled head.instr alts

variable {f : Instr → Instr}

theorem mapAlternatives_eq_map (alts : List (Nat × Outline)) :
    mapAlternatives f alts = alts.map fun a => (a.1, a.2.map f) := by
  induction alts with
  | nil => rfl
  | cons a alts ih => simp [mapAlternatives, ih]

@[simp] theorem length_mapAlternatives (alts : List (Nat × Outline)) :
    (mapAlternatives f alts).length = alts.length := by
  simp [mapAlternatives_eq_map]

@[simp] theorem jumps_mapAlternatives (alts : List (Nat × Outline)) :
    jumps (mapAlternatives f alts) = jumps alts := by
  simp [jumps, mapAlternatives_eq_map]

theorem sizeOfAlternatives_map {alts : List (Nat × Outline)}
    (h : ∀ a ∈ alts, (a.2.map f).size = a.2.size) :
    sizeOfAlternatives (mapAlternatives f alts) = sizeOfAlternatives alts := by
  induction alts with
  | nil => rfl
  | cons a alts ih =>
    rw [List.forall_mem_cons] at h
    simp only [mapAlternatives, sizeOfAlternatives, h.1, ih h.2, jumps_mapAlternatives]

@[simp] theorem size_map (o : Outline) : (o.map f).size = o.size := by
  induction o using Outline.ind with
  | nil => rfl
  | op i => rfl
  | seq first second ihfirst ihsecond => simp only [map, size, ihfirst, ihsecond]
  | dispatch head alternatives ih => simp only [map, size, sizeOfAlternatives_map ih]

theorem records_map (start : Nat) (alts : List (Nat × Outline)) :
    records start (mapAlternatives f alts) = records start alts := by
  induction alts generalizing start with
  | nil => rfl
  | cons a alts ih =>
    have hempty : (mapAlternatives f alts).isEmpty = alts.isEmpty := by
      simp [mapAlternatives_eq_map]
    simp only [mapAlternatives, records, size_map, jumps, hempty]
    rw [ih]

theorem layoutAlternatives_map (hf : Steady f) {join start : Nat} {alts : List (Nat × Outline)}
    (h : ∀ a ∈ alts, ∀ start, (a.2.map f).layout start = (a.2.layout start).map f) :
    layoutAlternatives join start (mapAlternatives f alts)
      = (layoutAlternatives join start alts).map f := by
  induction alts generalizing start with
  | nil => rfl
  | cons a alts ih =>
    rw [List.forall_mem_cons] at h
    simp only [mapAlternatives, layoutAlternatives, List.map_append, List.map_replicate, h.1,
      size_map, jumps_mapAlternatives, ih h.2, hf.jump]

/-- What stands between jumps and dispatches does not matter to where it stands. -/
theorem layout_map (hf : Steady f) (start : Nat) (o : Outline) :
    (o.map f).layout start = (o.layout start).map f := by
  induction o using Outline.ind generalizing start with
  | nil => rfl
  | op i => rfl
  | seq first second ihfirst ihsecond =>
    simp only [map, layout, List.map_append, ihfirst, ihsecond, size_map]
  | dispatch head alternatives ih =>
    have hsize : sizeOfAlternatives (mapAlternatives f alternatives)
        = sizeOfAlternatives alternatives := sizeOfAlternatives_map fun a _ => size_map a.2
    simp only [map, layout, List.map_cons, hf.filled, records_map, hsize,
      layoutAlternatives_map hf ih]

end TermVM.Outline
