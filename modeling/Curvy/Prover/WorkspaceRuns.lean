import Curvy.Prover.ProofWorkspace
import Curvy.Witness.WorkspaceAgrees

/-!
# Kept workspaces change nothing

A lease leaves no element behind, so that every call starts on empty vectors. From there the steps
in place compute what the plain path computes, whatever stood in the allocations.
-/

namespace Curvy.Prover

set_option autoImplicit false

open Witness (Fr SerdeJson WitnessError WitnessVectors WitnessWorkspace)
open Qap (SynthesisError Transforms Vectors)
open Work (Follows)

variable {lib : Libraries}

/-! ## Clean workspaces -/

namespace ProofWorkspace

/-- Nothing of a witness is left. -/
def Clean (w : ProofWorkspace) : Prop :=
  w.a.Wiped ∧ w.b.Wiped ∧ w.c.Wiped ∧ w.h.Wiped ∧ w.assignment.Wiped

theorem new_clean (limit : Nat) : (new limit).Clean :=
  ⟨Buffer.new_wiped, Buffer.new_wiped, Buffer.new_wiped, Buffer.new_wiped, Buffer.new_wiped⟩

theorem clear_clean (w : ProofWorkspace) : w.clear.Clean := by
  unfold clear
  dsimp only
  split
  · exact new_clean w.limit
  · exact ⟨Buffer.zeroize_wiped _, Buffer.zeroize_wiped _, Buffer.zeroize_wiped _,
      Buffer.zeroize_wiped _, Buffer.zeroize_wiped _⟩

theorem Clean.elements {w : ProofWorkspace} (h : w.Clean) : w.elements = .empty := by
  obtain ⟨ha, hb, hc, hh, hassignment⟩ := h
  unfold ProofWorkspace.elements
  rw [ha.1, hb.1, hc.1, hh.1, hassignment.1]
  rfl

end ProofWorkspace

/-! ## The witness map -/

/-- The loop over the rows does not touch C. -/
theorem evaluateRows_keeps (matrices : Fin 2 → ZkeyMatrices.CompactMatrix) (assignment : List Fr)
    (rows : List Nat) : Work.Keeps Vectors.c (Qap.evaluateRows matrices assignment rows) := by
  induction rows with
  | nil => exact Work.Keeps.pure ()
  | cons row rows ih =>
    apply Work.Keeps.bind (Work.Keeps.lift _)
    intro x
    apply Work.Keeps.bind Work.Keeps.get
    intro v
    apply Work.Keeps.bind
    · exact Work.Keeps.modify fun _ => rfl
    · intro _
      apply Work.Keeps.bind (Work.Keeps.lift _)
      intro y
      apply Work.Keeps.bind Work.Keeps.get
      intro v
      apply Work.Keeps.bind
      · exact Work.Keeps.modify fun _ => rfl
      · exact fun _ => ih

theorem evaluate_keeps (matrices : Fin 2 → ZkeyMatrices.CompactMatrix) (numConstraints : Nat)
    (assignment : List Fr) :
    Work.Keeps Vectors.c (Qap.evaluate matrices numConstraints assignment) := by
  apply Work.Keeps.bind Work.Keeps.get
  intro v
  apply Work.Keeps.bind (Work.Keeps.lift _)
  intro _
  apply Work.Keeps.bind (Work.Keeps.lift _)
  intro _
  exact evaluateRows_keeps matrices assignment _

namespace CircuitProver

variable (p : CircuitProver lib) (fullAssignment : List Fr)

/-- The vectors of the transforms in a workspace without elements. -/
theorem witnessMapWithWorkspace_follows :
    Follows .empty (p.witnessMapWithWorkspace fullAssignment) (p.witnessMap fullAssignment)
      fun h _ s => s.vectors.a = h ∧ s.h = [] ∧ s.assignment = [] := by
  unfold witnessMapWithWorkspace witnessMap Qap.witnessMapFromCompactMatrices
  apply Follows.lift
  intro domain
  apply Follows.lift
  intro _
  dsimp only
  have hzeros : ∀ n : Nat, Buffer.resize ([] : List Fr) n 0 = List.replicate n 0 :=
    fun n => Buffer.resize_nil n 0
  have hvectors : ∀ (zeros : List Fr), Follows ⟨zeros, zeros, []⟩
      (Qap.evaluate p.matrices p.numConstraints fullAssignment >>= fun _ =>
        Qap.finishWitnessMapInPlace lib.transforms p.numInstanceVariables p.numConstraints
          fullAssignment)
      ((Qap.evaluate p.matrices p.numConstraints fullAssignment ⟨zeros, zeros, []⟩).1 >>= fun _ =>
        Qap.finishWitnessMap lib.transforms
          (Qap.evaluate p.matrices p.numConstraints fullAssignment ⟨zeros, zeros, []⟩).2.a
          (Qap.evaluate p.matrices p.numConstraints fullAssignment ⟨zeros, zeros, []⟩).2.b
          p.numInstanceVariables p.numConstraints fullAssignment)
      fun h _ v => v.a = h := by
    intro zeros
    apply Follows.bind (Follows.self _ _)
    intro _ _ v hv
    have hc : v.c = [] := by
      rw [hv.2]
      exact evaluate_keeps p.matrices p.numConstraints fullAssignment ⟨zeros, zeros, []⟩
    have hsame : v = ⟨v.a, v.b, []⟩ := by rw [← hc]
    rw [← hv.2, hsame]
    exact Follows.leaves _ _ Vectors.a
  rw [← hzeros]
  apply Follows.mono
  · apply Follows.zoom
    apply Follows.get
    apply Follows.modify
    apply Follows.modify
    exact hvectors (Buffer.resize [] (lib.transforms.size domain) 0)
  · intro h _ s hs
    obtain ⟨v, hv, hs⟩ := hs
    rw [hs]
    exact ⟨hv, rfl, rfl⟩

/-! ## The scalars -/

theorem zipWrite_replicate {α β : Type} (f : β → α) (z : α) (ys : List β) :
    Qap.zipWrite (fun _ y => f y) (List.replicate ys.length z) ys = ys.map f := by
  induction ys with
  | nil => rfl
  | cons y ys ih =>
    rw [List.length_cons, List.replicate_succ, Qap.zipWrite, ih, List.map_cons]

theorem fillScalars_follows {s : ProofVectors} (hh : s.h = []) (hassignment : s.assignment = []) :
    Follows s (fillScalars fullAssignment) (scalarsFromH s.vectors.a fullAssignment)
      fun b _ t => (t.h, t.assignment) = b := by
  have hlength : (fullAssignment.drop 1).length = fullAssignment.length - 1 := List.length_drop
  unfold fillScalars scalarsFromH
  apply Follows.get
  apply Follows.modify
  apply Follows.lift
  intro _
  rw [hh, hassignment, Buffer.resize_nil, Buffer.resize_nil, ← hlength]
  apply Or.inr
  refine ⟨(), _, rfl, rfl, ?_⟩
  exact Prod.ext (zipWrite_replicate intoBigint 0 _) (zipWrite_replicate intoBigint 0 _)

theorem scalarsWithWorkspace_follows :
    Follows .empty (p.scalarsWithWorkspace fullAssignment) (p.scalars fullAssignment)
      fun b _ s => (s.h, s.assignment) = b := by
  apply Follows.bind (p.witnessMapWithWorkspace_follows fullAssignment)
  intro h _ s hs
  obtain ⟨ha, hh, hassignment⟩ := hs
  rw [← ha]
  exact fillScalars_follows fullAssignment hh hassignment

theorem createProofWithWorkspace_eq (draws : Draws) :
    (p.createProofWithWorkspace draws fullAssignment .empty).1 =
      p.createProofWithCompactMatrices draws fullAssignment := by
  apply Follows.value
  apply Follows.bind (p.scalarsWithWorkspace_follows fullAssignment)
  intro b _ s hs
  obtain ⟨h, assignment⟩ := b
  obtain ⟨rfl, rfl⟩ := Prod.mk.inj hs
  apply Follows.get
  apply Follows.mono (Follows.self _ s)
  intro b a t hb
  exact hb.1

/-! ## One proof -/

variable {p fullAssignment}

theorem proveWithWorkspace_eq {w : ProofWorkspace} (hw : w.Clean) (draws : Draws)
    (spare : ProofWorkspace.Spare) :
    (p.proveWithWorkspace draws fullAssignment spare w).1 = p.prove draws fullAssignment := by
  unfold proveWithWorkspace prove
  cases p.validateAssignment fullAssignment with
  | error stop => rfl
  | ok _ =>
    dsimp only
    rw [hw.elements, createProofWithWorkspace_eq]
    rfl

theorem proveWithWorkspace_clean (w : ProofWorkspace) (draws : Draws)
    (spare : ProofWorkspace.Spare) :
    (p.proveWithWorkspace draws fullAssignment spare w).2.Clean := by
  unfold proveWithWorkspace
  cases p.validateAssignment fullAssignment with
  | error stop => exact ProofWorkspace.clear_clean _
  | ok _ => exact ProofWorkspace.clear_clean _

end CircuitProver

namespace ResidentWitness

theorem calculateInPlace_follows (g : ResidentWitness) (serde : SerdeJson) (json : String) :
    Follows .empty (g.calculateInPlace serde json) (g.calculateJson serde json)
      fun b _ s => s.assignment = b := by
  cases g with
  | graph source => exact source.calculateInPlace_follows serde json
  | sage program => exact program.calculateInPlace_follows serde json

end ResidentWitness

namespace ResidentProver

variable (p : ResidentProver lib) (serde : SerdeJson)

theorem consume_spec (draws : Draws) (spare : ProofWorkspace.Spare) (assignment : List Fr)
    {w : ProofWorkspace} (hw : w.Clean) :
    (p.consume draws spare assignment w).1 = p.prover.proveAssignment draws assignment ∧
      (p.consume draws spare assignment w).2.Clean := by
  have hprove := @CircuitProver.proveWithWorkspace_eq lib p.prover assignment w hw draws spare
  have hclean := @CircuitProver.proveWithWorkspace_clean lib p.prover assignment w draws spare
  unfold consume CircuitProver.proveAssignment
  rw [Work.bind_apply, ← hprove]
  cases hr : p.prover.proveWithWorkspace draws assignment spare w with
  | mk r t =>
    rw [hr] at hclean
    cases r with
    | error stop => exact ⟨rfl, hclean⟩
    | ok proof => exact ⟨rfl, hclean⟩

/-- The result on clean workspaces, and both workspaces behind it. -/
theorem proveJsonWithWorkspace_spec (draws : Draws) (json : String) (spares : Spares)
    {w : WitnessWorkspace × ProofWorkspace} (hwitness : w.1.Clean) (hproof : w.2.Clean) :
    (p.proveJsonWithWorkspace serde draws json spares w).1 = p.proveJson serde draws json ∧
      (p.proveJsonWithWorkspace serde draws json spares w).2.1.Clean ∧
      (p.proveJsonWithWorkspace serde draws json spares w).2.2.Clean := by
  have hempty : (⟨w.1.values.live, w.1.assignment.live⟩ : WitnessVectors) = .empty := by
    rw [hwitness.1.1, hwitness.2.1]
    rfl
  have hcalculate := p.witnessGraph.calculateInPlace_follows serde json
  unfold proveJsonWithWorkspace ResidentWitness.withWitnessJson proveJson WitnessWorkspace.run
  dsimp only
  rw [hempty]
  rcases hcalculate with ⟨stop, hx, hy⟩ | ⟨_, assignment, hx, hy, hassignment⟩
  · rw [hx, hy]
    exact ⟨rfl, WitnessWorkspace.clear_clean _, hproof⟩
  · rw [hx, hy, hassignment]
    obtain ⟨hresult, hclean⟩ := p.consume_spec draws spares.proof assignment hproof
    exact ⟨hresult, WitnessWorkspace.clear_clean _, hclean⟩

end ResidentProver

/-! ## Sequences of proofs -/

/-- A call: a proof of an assignment, or of the inputs of a circuit. -/
inductive ProofRequest (lib : Libraries) where
  | assignment (prover : CircuitProver lib) (draws : Draws) (fullAssignment : List Fr)
  | json (prover : ResidentProver lib) (draws : Draws) (text : String)

namespace ProofRequest

/-- What a call returns: a proof, or the bundle of a verified one. -/
abbrev Result (lib : Libraries) : Type := Except (Stop ProofError) (lib.Proof ⊕ lib.Bundle)

/-- The call with fresh buffers. -/
def plain (serde : SerdeJson) : ProofRequest lib → Result lib
  | .assignment prover draws fullAssignment => (prover.prove draws fullAssignment).map .inl
  | .json prover draws text => (prover.proveJson serde draws text).map .inr

/-- The call with the workspaces, and what it leaves in them. -/
def reusing (serde : SerdeJson) (request : ProofRequest lib) (spares : Spares)
    (w : WitnessWorkspace × ProofWorkspace) : Result lib × (WitnessWorkspace × ProofWorkspace) :=
  match request with
  | .assignment prover draws fullAssignment =>
    let r := prover.proveWithWorkspace draws fullAssignment spares.proof w.2
    (r.1.map .inl, w.1, r.2)
  | .json prover draws text =>
    let r := prover.proveJsonWithWorkspace serde draws text spares w
    (r.1.map .inr, r.2)

/-- One call after the other. -/
def run (serde : SerdeJson) : List (ProofRequest lib × Spares) → WitnessWorkspace × ProofWorkspace →
    List (Result lib) × (WitnessWorkspace × ProofWorkspace)
  | [], w => ([], w)
  | call :: calls, w =>
    let r := call.1.reusing serde call.2 w
    let rest := run serde calls r.2
    (r.1 :: rest.1, rest.2)

/-- A call on clean workspaces has the result of the plain one and leaves them clean. -/
theorem reusing_spec (serde : SerdeJson) (request : ProofRequest lib) (spares : Spares)
    {w : WitnessWorkspace × ProofWorkspace} (hwitness : w.1.Clean) (hproof : w.2.Clean) :
    (request.reusing serde spares w).1 = request.plain serde ∧
      (request.reusing serde spares w).2.1.Clean ∧ (request.reusing serde spares w).2.2.Clean := by
  cases request with
  | assignment prover draws fullAssignment =>
    have hprove := @CircuitProver.proveWithWorkspace_eq lib prover fullAssignment w.2 hproof draws
      spares.proof
    refine ⟨?_, hwitness, CircuitProver.proveWithWorkspace_clean _ _ _⟩
    exact congrArg (Except.map Sum.inl) hprove
  | json prover draws text =>
    obtain ⟨hresult, hclean⟩ := prover.proveJsonWithWorkspace_spec serde draws text spares hwitness
      hproof
    refine ⟨?_, hclean⟩
    exact congrArg (Except.map Sum.inr) hresult

theorem run_spec (serde : SerdeJson) (calls : List (ProofRequest lib × Spares))
    {w : WitnessWorkspace × ProofWorkspace} (hwitness : w.1.Clean) (hproof : w.2.Clean) :
    (run serde calls w).1 = calls.map (fun call => call.1.plain serde) ∧
      (run serde calls w).2.1.Clean ∧ (run serde calls w).2.2.Clean := by
  induction calls generalizing w with
  | nil => exact ⟨rfl, hwitness, hproof⟩
  | cons call calls ih =>
    obtain ⟨hresult, hwitness, hproof⟩ := call.1.reusing_spec serde call.2 hwitness hproof
    obtain ⟨hresults, hclean⟩ := ih hwitness hproof
    refine ⟨?_, hclean⟩
    rw [List.map_cons, ← hresult, ← hresults]
    rfl

/-- Whatever was proved before with two shared workspaces, and whatever they may retain: all
results are those of the plain calls, nothing of a witness is left, and the next proof finds H and
the scalars that the plain path computes. -/
theorem reused_workspaces_change_nothing (serde : SerdeJson)
    (calls : List (ProofRequest lib × Spares)) (witnessLimit proofLimit : Nat) :
    let done := run serde calls (WitnessWorkspace.new witnessLimit, ProofWorkspace.new proofLimit)
    done.1 = calls.map (fun call => call.1.plain serde) ∧ done.2.1.Clean ∧ done.2.2.Clean ∧
      ∀ (p : CircuitProver lib) (fullAssignment : List Fr),
        let h := p.witnessMapWithWorkspace fullAssignment done.2.2.elements
        let filled := p.scalarsWithWorkspace fullAssignment done.2.2.elements
        h.1.map (fun _ => h.2.vectors.a) = p.witnessMap fullAssignment ∧
          filled.1.map (fun _ => (filled.2.h, filled.2.assignment)) = p.scalars fullAssignment := by
  intro done
  obtain ⟨hresults, hwitness, hproof⟩ := @run_spec lib serde calls
    (WitnessWorkspace.new witnessLimit, ProofWorkspace.new proofLimit)
    (WitnessWorkspace.new_clean witnessLimit) (ProofWorkspace.new_clean proofLimit)
  refine ⟨hresults, hwitness, hproof, fun p fullAssignment => ?_⟩
  intro h filled
  have hempty : done.2.2.elements = .empty := hproof.elements
  constructor
  · have hmap := (p.witnessMapWithWorkspace_follows fullAssignment).mono fun b _ t ht => ht.1
    have hview := Follows.result hmap
    rw [← hempty] at hview
    exact hview
  · have hview := Follows.result (p.scalarsWithWorkspace_follows fullAssignment)
    rw [← hempty] at hview
    exact hview

end ProofRequest

end Curvy.Prover
