import Cfmd.Exact.Division
import Cfmd.Lib.Worklist
import Cfmd.Grounded.Solver

/-! Positive bag programs: every rule adds a multiple of the product of its
premises' multiplicities to its head. The solver settles which atoms are live by
the grounded closure of the support, marks the atoms a cycle feeds as infinite
and evaluates the others in topological order. -/

namespace Cfmd.Fixpoint
open Lib Grounded Exact

inductive NaturalInfinity
  | finite (value : ExactNatural)
  | infinite
  deriving DecidableEq

namespace NaturalInfinity

def zero : NaturalInfinity := .finite .zero

def finiteU64 (value : UInt64) : NaturalInfinity := .finite (.fromU64 value)

def isInfinite (value : NaturalInfinity) : Bool := match value with
  | finite _ => false
  | infinite => true

end NaturalInfinity

/-- A body may hold an atom more than once. -/
structure PositiveBagRule where
  body : List GroundedAtomId
  head : GroundedAtomId
  coefficient : UInt64
  deriving DecidableEq

instance : Inhabited PositiveBagRule := ⟨⟨[], 0, 0⟩⟩

structure PositiveBagProgram where
  atomCount : ℕ
  seedMultiplicity : List UInt64
  rules : List PositiveBagRule
  deriving DecidableEq

inductive PositiveBagFixpointError
  | atomOutsideUniverse (atom : GroundedAtomId)
  | seedShapeMismatch
  | certificateShapeMismatch
  | support (error : GroundedClosureError)
  | finiteDependencyCycle
  deriving DecidableEq

namespace PositiveBagProgram

def validateAtom (atomCount : ℕ) (atom : GroundedAtomId) : Except PositiveBagFixpointError Unit :=
  if atom ≥ atomCount then .error (.atomOutsideUniverse atom) else .ok ()

def new (atomCount : ℕ) (seedMultiplicity : List UInt64) (rules : List PositiveBagRule) :
    Except PositiveBagFixpointError PositiveBagProgram :=
  if seedMultiplicity.length ≠ atomCount then .error .seedShapeMismatch
  else do
    forM rules fun rule => do
      validateAtom atomCount rule.head
      forM rule.body (validateAtom atomCount)
    return { atomCount, seedMultiplicity, rules }

def seedOf (program : PositiveBagProgram) (atom : GroundedAtomId) : UInt64 :=
  program.seedMultiplicity[atom]?.getD 0

/-- `program.rules[rule_index]`; the indices in use are in range. -/
def rule (program : PositiveBagProgram) (index : ℕ) : PositiveBagRule :=
  program.rules[index]?.getD default

def supportProgram (program : PositiveBagProgram) :
    Except GroundedClosureError GroundedProgram :=
  let seeds := (List.range program.seedMultiplicity.length).filter fun index =>
    program.seedOf index != 0
  let rules := (program.rules.filter fun rule => rule.coefficient != 0).map fun rule =>
    GroundedRule.new rule.body rule.head
  GroundedProgram.new program.atomCount seeds rules

end PositiveBagProgram

structure PositiveBagCertificate where
  support : GroundedCertificate
  multiplicity : List NaturalInfinity
  deriving DecidableEq

namespace PositiveBagCertificate

def multiplicityOf (c : PositiveBagCertificate) (atom : GroundedAtomId) :
    Option NaturalInfinity :=
  c.multiplicity[atom]?

end PositiveBagCertificate

def isSet (flags : List Bool) (node : ℕ) : Bool := flags[node]?.getD false

structure PositiveBagIncidence where
  rulesByHead : List (List ℕ)
  graph : List (List ℕ)
  reverse : List (List ℕ)

namespace PositiveBagIncidence

/-- The rules `compile` skips: zero coefficient, dead head or a dead premise. -/
def skips (support : GroundedCertificate) (rule : PositiveBagRule) : Bool :=
  rule.coefficient == 0 || !support.isLive rule.head || !rule.body.all support.isLive

def compile (program : PositiveBagProgram) (support : GroundedCertificate) :
    PositiveBagIncidence :=
  let empty := List.replicate program.atomCount []
  let active := (List.range program.rules.length).filter fun index =>
    !skips support (program.rule index)
  let rulesByHead := active.foldl
    (fun rows index => pushAt rows (program.rule index).head index) empty
  let edges := active.foldl
    (fun rows index => (program.rule index).body.foldl
      (fun rows premise => pushAt rows premise (program.rule index).head) rows) empty
  let graph := edges.map sortDedup
  let reverse := (List.range graph.length).foldl
    (fun rows source => (row graph source).foldl
      (fun rows target => pushAt rows target source) rows) empty
  { rulesByHead, graph, reverse }

end PositiveBagIncidence

/-- Iterations that empty a search stack: an entry per edge, two per node and the
start. -/
def searchFuel (graph : List (List ℕ)) : ℕ :=
  ((List.range graph.length).map fun node => (row graph node).length + 2).sum + 1

/-- The depth-first search of `dfs_order`; the top of the stack is the head of
the list, and a `true` entry stands for a node whose successors are pushed. -/
structure DfsOrder where
  seen : List Bool
  order : List ℕ
  stack : List (ℕ × Bool)

namespace DfsOrder

def pop (s : DfsOrder) : Option ((ℕ × Bool) × DfsOrder) := match s.stack with
  | [] => none
  | entry :: stack => some (entry, { s with stack })

def visit (graph : List (List ℕ)) (entry : ℕ × Bool) (s : DfsOrder) : DfsOrder :=
  if entry.2 then { s with order := s.order ++ [entry.1] }
  else if isSet s.seen entry.1 then s
  else
    let seen := s.seen.set entry.1 true
    { s with
      seen
      stack := (row graph entry.1).reverse.foldl
        (fun stack next => if isSet seen next then stack else (next, false) :: stack)
        ((entry.1, true) :: s.stack) }

end DfsOrder

def dfsOrder (graph : List (List ℕ)) (s : DfsOrder) (start : ℕ) : DfsOrder :=
  if isSet s.seen start then s
  else drain DfsOrder.pop (DfsOrder.visit graph) (searchFuel graph)
    { s with stack := [(start, false)] }

structure DfsComponent where
  seen : List Bool
  out : List ℕ
  stack : List ℕ

namespace DfsComponent

def pop (s : DfsComponent) : Option (ℕ × DfsComponent) := match s.stack with
  | [] => none
  | node :: stack => some (node, { s with stack })

def visit (reverse : List (List ℕ)) (node : ℕ) (s : DfsComponent) : DfsComponent :=
  if isSet s.seen node then s
  else
    let seen := s.seen.set node true
    { seen
      out := s.out ++ [node]
      stack := (row reverse node).foldl
        (fun stack next => if isSet seen next then stack else next :: stack) s.stack }

end DfsComponent

def dfsComponent (reverse : List (List ℕ)) (seen : List Bool) (start : ℕ) : DfsComponent :=
  drain DfsComponent.pop (DfsComponent.visit reverse) (searchFuel reverse)
    { seen, out := [], stack := [start] }

/-- The loop over the reversed finishing order: nodes collected so far and the
marks of those that lie on a cycle. -/
structure Components where
  seen : List Bool
  cyclic : List Bool

def Components.collect (incidence : PositiveBagIncidence) (live : List Bool) (s : Components)
    (node : ℕ) : Components :=
  if isSet s.seen node || !isSet live node then s
  else
    let search := dfsComponent incidence.reverse s.seen node
    -- `graph[node]` is sorted, so the binary search decides membership
    let isCycle := decide (search.out.length > 1) || (row incidence.graph node).contains node
    { seen := search.seen
      cyclic := if isCycle then search.out.foldl (fun cyclic member => cyclic.set member true)
        s.cyclic else s.cyclic }

def finishOrder (graph : List (List ℕ)) (live : List Bool) : List ℕ :=
  (((List.range graph.length).filter fun node => isSet live node).foldl (dfsOrder graph)
    { seen := List.replicate graph.length false, order := [], stack := [] }).order

def cyclicLiveAtoms (incidence : PositiveBagIncidence) (live : List Bool) : List Bool :=
  let none := List.replicate incidence.graph.length false
  ((finishOrder incidence.graph live).reverse.foldl (Components.collect incidence live)
    { seen := none, cyclic := none }).cyclic

def classifyInfinite (incidence : PositiveBagIncidence) (live : List Bool) : List Bool :=
  let infinite := cyclicLiveAtoms incidence live
  let queue := (List.range infinite.length).filter fun index => isSet infinite index
  (spread isSet (fun flags target => flags.set target true) (isSet live) (row incidence.graph)
    (2 * infinite.length) { marked := infinite, queue }).marked

/-- The topological evaluation of the live atoms that are not infinite. -/
structure Evaluation where
  indegree : List ℕ
  queue : List ℕ
  finite : List ExactNatural
  processed : ℕ

/-- What the evaluation reads: the program, its incidence lists and the atoms
that are live and not infinite. -/
structure EvaluationContext where
  program : PositiveBagProgram
  incidence : PositiveBagIncidence
  live : List Bool
  infinite : List Bool

namespace EvaluationContext

def isFinite (ctx : EvaluationContext) (atom : ℕ) : Bool :=
  isSet ctx.live atom && !isSet ctx.infinite atom

def product (finite : List ExactNatural) (rule : PositiveBagRule) : ExactNatural :=
  rule.body.foldl (fun product premise => product.multiplyAssign (finite[premise]?.getD .zero))
    (.fromU64 rule.coefficient)

def value (ctx : EvaluationContext) (finite : List ExactNatural) (atom : ℕ) : ExactNatural :=
  (row ctx.incidence.rulesByHead atom).foldl
    (fun value index => value.addAssign (product finite (ctx.program.rule index)))
    (.fromU64 (ctx.program.seedOf atom))

def start (ctx : EvaluationContext) : Evaluation :=
  let indegree := (List.range ctx.program.atomCount).map fun head =>
    if ctx.isFinite head then (row ctx.incidence.reverse head).countP ctx.isFinite else 0
  { indegree
    queue := (List.range ctx.program.atomCount).filter fun index =>
      ctx.isFinite index && indegree[index]?.getD 0 == 0
    finite := List.replicate ctx.program.atomCount .zero
    processed := 0 }

def pop (s : Evaluation) : Option (ℕ × Evaluation) := match s.queue with
  | [] => none
  | atom :: queue => some (atom, { s with queue })

def release (ctx : EvaluationContext) (s : Evaluation) (target : ℕ) : Evaluation :=
  if !ctx.isFinite target then s
  else
    let left := s.indegree[target]?.getD 0 - 1
    { s with
      indegree := s.indegree.set target left
      queue := if left = 0 then s.queue ++ [target] else s.queue }

def visit (ctx : EvaluationContext) (atom : ℕ) (s : Evaluation) : Evaluation :=
  (row ctx.incidence.graph atom).foldl ctx.release
    { s with processed := s.processed + 1, finite := s.finite.set atom (ctx.value s.finite atom) }

def evaluate (ctx : EvaluationContext) : Evaluation :=
  drain pop ctx.visit ctx.program.atomCount ctx.start

def multiplicity (ctx : EvaluationContext) (finite : List ExactNatural) (atom : ℕ) :
    NaturalInfinity :=
  if !isSet ctx.live atom then .zero
  else if isSet ctx.infinite atom then .infinite
  else .finite (finite[atom]?.getD .zero)

end EvaluationContext

/-- What `solve_positive_bag` computes from the solved support. -/
def evaluationContext (program : PositiveBagProgram) (support : GroundedCertificate) :
    EvaluationContext :=
  let live := (List.range program.atomCount).map support.isLive
  let incidence := PositiveBagIncidence.compile program support
  { program, incidence, live, infinite := classifyInfinite incidence live }

def solvePositiveBag (program : PositiveBagProgram) :
    Except PositiveBagFixpointError PositiveBagCertificate := do
  let supportProgram ← program.supportProgram.mapError .support
  let support := (solve supportProgram).1
  (check supportProgram support).mapError .support
  let ctx := evaluationContext program support
  let evaluation := ctx.evaluate
  let expected := (List.range program.atomCount).countP ctx.isFinite
  let multiplicity := (List.range program.atomCount).map (ctx.multiplicity evaluation.finite)
  if evaluation.processed ≠ expected then .error .finiteDependencyCycle
  else .ok { support, multiplicity }

end Cfmd.Fixpoint
