import Cfmd.Lib.Reach
import Mathlib.Data.Nat.Fib.Basic

/-! The persistent ordered map: a tree of shared nodes, each with its height and the
number of its entries. Sharing is not visible here: a path that is copied is a tree that
is rebuilt. Heights and lengths are natural numbers; that they fit is proved with the
balance. -/

namespace Cfmd.Persistent

inductive MapTree (K V : Type)
  | empty
  | node (key : K) (value : V) (height subtreeLen : ℕ) (left right : MapTree K V)
deriving DecidableEq

variable {K V σ : Type}

namespace MapTree

def left : MapTree K V → MapTree K V
  | empty => empty
  | node _ _ _ _ left _ => left

def right : MapTree K V → MapTree K V
  | empty => empty
  | node _ _ _ _ _ right => right

end MapTree

open MapTree

def mapHeight : MapTree K V → ℕ
  | empty => 0
  | node _ _ height _ _ _ => height

def mapLen : MapTree K V → ℕ
  | empty => 0
  | node _ _ _ subtreeLen _ _ => subtreeLen

def mapNode (key : K) (value : V) (left right : MapTree K V) : MapTree K V :=
  node key value (1 + max (mapHeight left) (mapHeight right)) (1 + mapLen left + mapLen right)
    left right

/-- `mapBalance` only calls this with a right child, which the source expects. -/
def mapRotateLeft : MapTree K V → MapTree K V
  | node key value _ _ left (node pivotKey pivotValue _ _ pivotLeft pivotRight) =>
    mapNode pivotKey pivotValue (mapNode key value left pivotLeft) pivotRight
  | tree => tree

/-- `mapBalance` only calls this with a left child, which the source expects. -/
def mapRotateRight : MapTree K V → MapTree K V
  | node key value _ _ (node pivotKey pivotValue _ _ pivotLeft pivotRight) right =>
    mapNode pivotKey pivotValue pivotLeft (mapNode key value pivotRight right)
  | tree => tree

def mapBalance : MapTree K V → MapTree K V
  | empty => empty
  | node key value height subtreeLen left right =>
    if mapHeight right + 1 < mapHeight left then
      if mapHeight left.left < mapHeight left.right then
        mapRotateRight (mapNode key value (mapRotateLeft left) right)
      else mapRotateRight (node key value height subtreeLen left right)
    else if mapHeight left + 1 < mapHeight right then
      if mapHeight right.right < mapHeight right.left then
        mapRotateLeft (mapNode key value left (mapRotateRight right))
      else mapRotateLeft (node key value height subtreeLen left right)
    else node key value height subtreeLen left right

/-- The least entry of a node with these parts, and the tree without it. -/
def mapTakeMin (key : K) (value : V) : MapTree K V → MapTree K V → K × V × MapTree K V
  | empty, right => (key, value, right)
  | node leftKey leftValue _ _ leftLeft leftRight, right =>
    let taken := mapTakeMin leftKey leftValue leftLeft leftRight
    (taken.1, taken.2.1, mapBalance (mapNode key value taken.2.2 right))

def mapJoin : MapTree K V → MapTree K V → MapTree K V
  | empty, right => right
  | node key value height subtreeLen left leftRight, empty =>
    node key value height subtreeLen left leftRight
  | node key value height subtreeLen left leftRight,
    node rightKey rightValue rightHeight rightLen rightLeft right =>
    if rightHeight + 1 < height then
      mapBalance (mapNode key value left
        (mapJoin leftRight (node rightKey rightValue rightHeight rightLen rightLeft right)))
    else if height + 1 < rightHeight then
      mapBalance (mapNode rightKey rightValue
        (mapJoin (node key value height subtreeLen left leftRight) rightLeft) right)
    else
      let taken := mapTakeMin rightKey rightValue rightLeft right
      mapBalance (mapNode taken.1 taken.2.1 (node key value height subtreeLen left leftRight)
        taken.2.2)
termination_by left right => sizeOf left + sizeOf right

/-- The predicate may keep a state of its own from one entry to the next. -/
def mapRetain (keep : σ → K → V → Bool × σ) : MapTree K V → σ → (MapTree K V × ℕ) × σ
  | empty, state => ((empty, 0), state)
  | node key value height subtreeLen left right, state =>
    let retainedLeft := mapRetain keep left state
    let kept := keep retainedLeft.2 key value
    let retainedRight := mapRetain keep right kept.2
    let removedChildren := retainedLeft.1.2 + retainedRight.1.2
    if kept.1 then
      if removedChildren = 0 then ((node key value height subtreeLen left right, 0), retainedRight.2)
      else
        ((mapBalance (mapNode key value retainedLeft.1.1 retainedRight.1.1), removedChildren),
          retainedRight.2)
    else ((mapJoin retainedLeft.1.1 retainedRight.1.1, removedChildren + 1), retainedRight.2)

section
variable [Ord K]

/-- `write` is what the caller does with the reference to the value. -/
def mapGetMut (write : V → V) (key : K) : MapTree K V → MapTree K V
  | empty => empty
  | node nodeKey value height subtreeLen left right =>
    match compare key nodeKey with
    | .lt => node nodeKey value height subtreeLen (mapGetMut write key left) right
    | .gt => node nodeKey value height subtreeLen left (mapGetMut write key right)
    | .eq => node nodeKey (write value) height subtreeLen left right

def mapRemove (key : K) : MapTree K V → MapTree K V × Option V
  | empty => (empty, none)
  | node nodeKey value height subtreeLen left right =>
    match compare key nodeKey with
    | .lt =>
      let removed := mapRemove key left
      if removed.2.isNone then (node nodeKey value height subtreeLen left right, none)
      else (mapBalance (mapNode nodeKey value removed.1 right), removed.2)
    | .gt =>
      let removed := mapRemove key right
      if removed.2.isNone then (node nodeKey value height subtreeLen left right, none)
      else (mapBalance (mapNode nodeKey value left removed.1), removed.2)
    | .eq =>
      match left, right with
      | left, empty => (left, some value)
      | empty, right => (right, some value)
      | left, node rightKey rightValue _ _ rightLeft rightRight =>
        let taken := mapTakeMin rightKey rightValue rightLeft rightRight
        (mapBalance (mapNode taken.1 taken.2.1 left taken.2.2), some value)

def mapInsert (key : K) (value : V) : MapTree K V → MapTree K V × Option V
  | empty => (mapNode key value empty empty, none)
  | node nodeKey nodeValue _ _ left right =>
    match compare key nodeKey with
    | .lt =>
      let inserted := mapInsert key value left
      (mapBalance (mapNode nodeKey nodeValue inserted.1 right), inserted.2)
    | .gt =>
      let inserted := mapInsert key value right
      (mapBalance (mapNode nodeKey nodeValue left inserted.1), inserted.2)
    | .eq => (mapNode key value left right, some nodeValue)

end

structure PersistentOrdMap (K V : Type) where
  root : MapTree K V
  len : ℕ
deriving DecidableEq

namespace PersistentOrdMap

def default : PersistentOrdMap K V := ⟨empty, 0⟩

/-- `none` is the panic of `expect` when there are not enough entries. -/
def build (entries : List (K × V)) (len : ℕ) : Option (MapTree K V × List (K × V)) :=
  if len = 0 then some (empty, entries)
  else do
    let (left, entries) ← build entries (len / 2)
    let (entry, entries) ← entries.head?.map fun entry => (entry, entries.tail)
    let (right, entries) ← build entries (len - len / 2 - 1)
    return (mapNode entry.1 entry.2 left right, entries)
termination_by len

variable [Ord K]

/-- `windows(2)` with `>=`. -/
def unsorted : List (K × V) → Bool
  | a :: b :: rest => (compare a.1 b.1).isGE || unsorted (b :: rest)
  | _ => false

def fromSortedUnique (entries : List (K × V)) : Option (PersistentOrdMap K V) :=
  if unsorted entries then none
  else do
    let (root, _) ← build entries entries.length
    return ⟨root, entries.length⟩

def insert (map : PersistentOrdMap K V) (key : K) (value : V) : PersistentOrdMap K V × Option V :=
  let inserted := mapInsert key value map.root
  (⟨inserted.1, if inserted.2.isNone then map.len + 1 else map.len⟩, inserted.2)

def remove (map : PersistentOrdMap K V) (key : K) : PersistentOrdMap K V × Option V :=
  let removed := mapRemove key map.root
  (if removed.2.isSome then ⟨removed.1, map.len - 1⟩ else map, removed.2)

omit [Ord K] in
def retain (map : PersistentOrdMap K V) (keep : σ → K → V → Bool × σ) (state : σ) :
    PersistentOrdMap K V :=
  let retained := (mapRetain keep map.root state).1
  if retained.2 = 0 then map else ⟨retained.1, map.len - retained.2⟩

def getMut (map : PersistentOrdMap K V) (key : K) (write : V → V) : PersistentOrdMap K V :=
  ⟨mapGetMut write key map.root, map.len⟩

end PersistentOrdMap

end Cfmd.Persistent
