import Mathlib.Algebra.Order.Round
import Mathlib.Data.Finset.Update
import Mathlib.Data.Int.Interval
import Mathlib.Data.Rat.Floor
import Mathlib.Order.Interval.Finset.Defs
import Mathlib.Tactic.FieldSimp
import Mathlib.Tactic.Linarith

/-!
# Redis.Trib

`alloc_slots` of `redis-trib`: which nodes of a new cluster are masters, the slots of each of
them, and the replicas of each of them.  Floats are rational numbers.

A result is missing where the script does not end, or calls a method of `nil`.  What is
printed is left out.
-/

namespace Redis.Trib

/-! ## Nodes -/

/-- What `alloc_slots` reads of a `ClusterNode`. -/
structure ClusterNode (η κ : Type) where
  host : η
  name : κ
  deriving DecidableEq

/-- What it writes: the keys of `info[:slots]`, and `info[:replicate]`. -/
structure Infos (η κ : Type) where
  slots : ClusterNode η κ → Finset ℤ
  replicate : ClusterNode η κ → Option κ

/-- The nodes after `assert_empty`. -/
def Infos.empty {η κ : Type} : Infos η κ := ⟨fun _ => ∅, fun _ => none⟩

def ClusterHashSlots : ℤ := 16384

/-- `first..last`. -/
def slotRange (first last : ℤ) : Finset ℤ :=
  @Finset.Icc ℤ Int.instLinearOrder.toPartialOrder.toPreorder Int.instLocallyFiniteOrder first last

theorem mem_slotRange {first last s : ℤ} : s ∈ slotRange first last ↔ first ≤ s ∧ s ≤ last :=
  Finset.mem_Icc

section Script

variable {η κ : Type} [DecidableEq η] [DecidableEq κ]

/-- `add_slots first..last`. -/
def Infos.addSlots (infos : Infos η κ) (n : ClusterNode η κ) (first last : ℤ) : Infos η κ :=
  { infos with slots := Function.update infos.slots n (infos.slots n ∪ slotRange first last) }

def Infos.setAsReplica (infos : Infos η κ) (n : ClusterNode η κ) (node_id : κ) : Infos η κ :=
  { infos with replicate := Function.update infos.replicate n (some node_id) }

variable (infos : Infos η κ)

theorem Infos.addSlots_self (n : ClusterNode η κ) (first last : ℤ) :
    (infos.addSlots n first last).slots n = infos.slots n ∪ slotRange first last :=
  Function.update_self n _ _

theorem Infos.addSlots_of_ne {n n' : ClusterNode η κ} (h : n' ≠ n) (first last : ℤ) :
    (infos.addSlots n first last).slots n' = infos.slots n' :=
  Function.update_of_ne h _ _

theorem Infos.setAsReplica_self (n : ClusterNode η κ) (node_id : κ) :
    (infos.setAsReplica n node_id).replicate n = some node_id :=
  Function.update_self n _ _

theorem Infos.setAsReplica_of_ne {n n' : ClusterNode η κ} (h : n' ≠ n) (node_id : κ) :
    (infos.setAsReplica n node_id).replicate n' = infos.replicate n' :=
  Function.update_of_ne h _ _

def checkCreateParameters (replicas : ℕ) (nodes : List (ClusterNode η κ)) : Bool :=
  ¬ nodes.length / (replicas + 1) < 3

/-! ## Masters -/

/-- The nodes that are left, by host. -/
abbrev Ips (η κ : Type) := List (η × List (ClusterNode η κ))

/-- `ips[n.info[:host]] << n`; a hash keeps the order of its keys. -/
def pushNode (n : ClusterNode η κ) : Ips η κ → Ips η κ
  | [] => [(n.host, [n])]
  | (ip, nodes) :: ips =>
    if ip = n.host then (ip, nodes ++ [n]) :: ips else (ip, nodes) :: pushNode n ips

/-- `ips.each`: a node of each host goes to `interleaved`. -/
def takeEach (nodesCount : ℕ) : Ips η κ → List (ClusterNode η κ) → Bool →
    Ips η κ × List (ClusterNode η κ) × Bool
  | [], interleaved, stop => ([], interleaved, stop)
  | (ip, []) :: ips, interleaved, stop =>
    let r := takeEach nodesCount ips interleaved (stop || interleaved.length == nodesCount)
    ((ip, []) :: r.1, r.2)
  | (ip, n :: nodes) :: ips, interleaved, stop =>
    let r := takeEach nodesCount ips (interleaved ++ [n]) stop
    ((ip, nodes) :: r.1, r.2)

/-- `while not stop`. -/
def interleaveLoop (nodesCount : ℕ) : ℕ → Ips η κ → List (ClusterNode η κ) →
    Option (List (ClusterNode η κ))
  | 0, _, _ => none
  | fuel + 1, ips, interleaved =>
    let r := takeEach nodesCount ips interleaved false
    if r.2.2 then some r.2.1 else interleaveLoop nodesCount fuel r.1 r.2.1

/-- `masters.each_with_index`. -/
def slotsLoop (mastersLength : ℕ) (slotsPerNode : ℚ) : List (ClusterNode η κ) → ℕ → ℤ → ℚ →
    Infos η κ → Infos η κ
  | [], _, _, _, infos => infos
  | n :: masters, masternum, first, cursor, infos =>
    let last := round (cursor + slotsPerNode - 1)
    let last :=
      if last > ClusterHashSlots ∨ masternum = mastersLength - 1 then ClusterHashSlots - 1
      else last
    let last := if last < first then first else last
    slotsLoop mastersLength slotsPerNode masters (masternum + 1) (last + 1)
      (cursor + slotsPerNode) (infos.addSlots n first last)

/-! ## Replicas -/

/-- `[:requested,:unused]`. -/
inductive Assign where
  | requested
  | unused
  deriving DecidableEq

/-- The nodes without a role, and what was written. -/
structure Spare (η κ : Type) where
  interleaved : List (ClusterNode η κ)
  nodesCount : ℕ
  infos : Infos η κ

/-- The first node of another host, or else the first node. -/
def takeReplica (m : ClusterNode η κ) (interleaved : List (ClusterNode η κ)) :
    Option (ClusterNode η κ × List (ClusterNode η κ)) :=
  match interleaved.find? fun n => n.host ≠ m.host with
  | some node => some (node, interleaved.filter fun n => n ≠ node)
  | none =>
    match interleaved with
    | [] => none
    | slave :: interleaved => some (slave, interleaved)

/-- `while assigned_replicas < @replicas`, with the replicas that are still to be assigned. -/
def assignLoop (assign : Assign) (m : ClusterNode η κ) : ℕ → Spare η κ → Option (Spare η κ)
  | 0, s => some s
  | left + 1, s =>
    if s.nodesCount = 0 then some s
    else
      match takeReplica m s.interleaved with
      | none => none
      | some (slave, interleaved) =>
        let s := ⟨interleaved, s.nodesCount - 1, s.infos.setAsReplica slave m.name⟩
        if assign = .unused then some s else assignLoop assign m left s

/-- `masters.each`. -/
def assignPass (replicas : ℕ) (assign : Assign) :
    List (ClusterNode η κ) → Spare η κ → Option (Spare η κ)
  | [], s => some s
  | m :: masters, s =>
    match assignLoop assign m replicas s with
    | none => none
    | some s => assignPass replicas assign masters s

/-- `alloc_slots`, with the masters that it has selected. -/
def allocSlots (replicas : ℕ) (nodes : List (ClusterNode η κ)) (infos : Infos η κ) :
    Option (List (ClusterNode η κ) × Infos η κ) :=
  let nodesCount := nodes.length
  let mastersCount := nodes.length / (replicas + 1)
  let ips := nodes.foldl (fun ips n => pushNode n ips) []
  match interleaveLoop nodesCount (nodesCount + 1) ips [] with
  | none => none
  | some interleaved =>
    let masters := interleaved.take mastersCount
    let interleaved := interleaved.drop mastersCount
    let nodesCount := nodesCount - masters.length
    let slotsPerNode : ℚ := ClusterHashSlots / mastersCount
    let infos := slotsLoop masters.length slotsPerNode masters 0 0 0 infos
    match assignPass replicas .requested masters ⟨interleaved, nodesCount, infos⟩ with
    | none => none
    | some s =>
      match assignPass replicas .unused masters s with
      | none => none
      | some s => some (masters, s.infos)

end Script

end Redis.Trib
