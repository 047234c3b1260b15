import ModelFormula.Error
import ModelFormula.Sublists

/-!
# Choosing codings

A term over some factors spans one subspace for every subset of them, and is given those that no
earlier term of its group has. A subterm is one such subspace, or several merged: a factor that
spans the intercept stands for the subsets with it and without it. A subterm absorbs another that
lacks exactly one of its factors, and each merge leaves one subterm less.
-/
namespace ModelFormula.Coding

variable {α : Type} [BEq α]

/-- A factor with or without the intercept of its own. -/
structure Factor (α : Type) where
  name : α
  spansIntercept : Bool
deriving BEq, Repr

def Factor.text (shown : α → String) (f : Factor α) : String :=
  shown f.name ++ if f.spansIntercept then "+" else "-"

/-- A set of factors, without repetitions. -/
structure Subterm (α : Type) where
  factors : List (Factor α)
deriving Repr

namespace Subterm

def ofFactors (factors : List (Factor α)) : Subterm α := ⟨factors.eraseDups⟩

def includes (a b : Subterm α) : Bool := b.factors.all a.factors.contains

def same (a b : Subterm α) : Bool := a.factors.length == b.factors.length && a.includes b

def text (shown : α → String) (s : Subterm α) : String :=
  "Subterm([" ++ ", ".intercalate (s.factors.map (·.text shown)) ++ "])"

/-- The other subterm lacks exactly one of the factors. -/
def canAbsorb (a b : Subterm α) : Bool :=
  a.factors.length == b.factors.length + 1 && a.includes b

/-- The other subterm with the factor that it lacks, which from now on spans the intercept. -/
def absorb (a b : Subterm α) : Except Fault (Subterm α) :=
  match a.factors.filter (!b.factors.contains ·) with
  | [f] =>
    if f.spansIntercept then .error .violation
    else
      let full : Factor α := ⟨f.name, true⟩
      .ok (if b.factors.contains full then b else ⟨b.factors ++ [full]⟩)
  | _ => .error .violation

end Subterm

/-- The first of the later subterms that can absorb the given one does. -/
def absorbInto (short : Subterm α) : List (Subterm α) → Except Fault (Option (List (Subterm α)))
  | [] => .ok none
  | long :: rest =>
    if long.canAbsorb short then do return some ((← long.absorb short) :: rest)
    else do return (← absorbInto short rest).map (long :: ·)

/-- One merge: the first subterm that a later one can absorb disappears. -/
def mergeOnce : List (Subterm α) → Except Fault (Option (List (Subterm α)))
  | [] => .ok none
  | s :: rest => do
    match ← absorbInto s rest with
    | some rest => return some rest
    | none => return (← mergeOnce rest).map (s :: ·)

/-- Absorbing keeps the number of the later subterms. -/
theorem absorbInto_length {short : Subterm α} {rest merged : List (Subterm α)}
    (absorbed : absorbInto short rest = .ok (some merged)) : merged.length = rest.length := by
  induction rest generalizing merged with
  | nil => simp [absorbInto] at absorbed
  | cons long rest ih =>
    simp only [absorbInto] at absorbed
    split at absorbed
    · cases taken : long.absorb short with
      | error fault => simp [taken, bind, Except.bind] at absorbed
      | ok s =>
        simp only [taken, bind, Except.bind, pure, Except.pure, Except.ok.injEq,
          Option.some.injEq] at absorbed
        simp [← absorbed]
    · cases inner : absorbInto short rest with
      | error fault => simp [inner, bind, Except.bind] at absorbed
      | ok found =>
        simp only [inner, bind, Except.bind, pure, Except.pure, Except.ok.injEq] at absorbed
        cases found with
        | none => simp at absorbed
        | some tail =>
          simp only [Option.map_some, Option.some.injEq] at absorbed
          simp [← absorbed, ih inner]

/-- A merge leaves one subterm less. -/
theorem mergeOnce_length {subterms merged : List (Subterm α)}
    (found : mergeOnce subterms = .ok (some merged)) : merged.length + 1 = subterms.length := by
  induction subterms generalizing merged with
  | nil => simp [mergeOnce] at found
  | cons s rest ih =>
    simp only [mergeOnce, bind, Except.bind] at found
    split at found
    · simp at found
    · rename_i result absorbed
      split at found
      · simp only [pure, Except.pure, Except.ok.injEq, Option.some.injEq] at found
        subst found
        simp [absorbInto_length absorbed]
      · split at found
        · simp at found
        · rename_i result inner
          simp only [pure, Except.pure, Except.ok.injEq, Option.map_eq_some_iff] at found
          obtain ⟨tail, rfl, rfl⟩ := found
          simp [ih inner]

/-- Merges as long as two subterms can be merged. -/
def merge (subterms : List (Subterm α)) : Except Fault (List (Subterm α)) :=
  match _found : mergeOnce subterms with
  | .error fault => .error fault
  | .ok none => .ok subterms
  | .ok (some merged) => merge merged
termination_by subterms.length
decreasing_by have := mergeOnce_length _found; omega

/-- The subterms of a term that are not used yet, shortest first. -/
def unused (used : List (Subterm α)) (factors : List α) : List (Subterm α) :=
  ((sortedSublists factors).map fun names =>
    Subterm.ofFactors (names.map fun name => ⟨name, false⟩)).filter fun s => !used.any (·.same s)

/-- Whether each factor of a subterm spans the intercept. -/
abbrev Flags (α : Type) := List (α × Bool)

def Subterm.coding (s : Subterm α) : Flags α := s.factors.map fun f => (f.name, f.spansIntercept)

/-- The codings of each term of a group; a term may need several, or none. -/
def pick {κ : Type} (group : List (κ × List α)) : Except Fault (List (κ × List (Flags α))) :=
  go [] group
where
  go (used : List (Subterm α)) :
      List (κ × List α) → Except Fault (List (κ × List (Flags α)))
    | [] => .ok []
    | (name, factors) :: rest => do
      let subterms := unused used factors
      let merged ← merge subterms
      return (name, merged.map Subterm.coding) :: (← go (used ++ subterms) rest)

end ModelFormula.Coding
