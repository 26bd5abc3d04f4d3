import RefFlow.Segment.Search
/-!
# Segments held as indices

The segments of a range of a real register are held as indices into a shared pool. Whether they are
in order is found out in one pass, which compares each index with the size of the pool before it reads
there. The pass writes down what it does to the pool.

Main definitions:

* `SegmentRefs.resolve` is the list of the denoted segments, if every index denotes one;
* `SegmentRefs.test` is the pass over the indices, access by access;
* `SegmentRefs.make?` refuses indices whose segments are not in order;
* `SegmentRefs.covers` asks for a point by halving; it has no answer if it met an index that
  denotes no segment;
* `SegmentRefs.Covers` says the same by looking at every index.
-/

namespace RefFlow

/-- What the test of indices does to the pool. -/
inductive PoolAccess
  /-- An index is compared with the size of the pool. -/
  | compare (i : Nat)
  /-- The segment at an index is read. -/
  | read (i : Nat)
  deriving DecidableEq, Repr

/-- The test of indices as it went: all accesses to the pool in their order, and the answer, which is
missing if there was no segment to read at some index. -/
structure TestRun where
  accesses : List PoolAccess
  answer : Option Bool
  deriving DecidableEq, Repr

/-- A test with accesses that came before it. -/
def TestRun.behind (before : List PoolAccess) (t : TestRun) : TestRun :=
  { t with accesses := before ++ t.accesses }

/-- The segments of one range, held as indices into a pool. -/
structure SegmentRefs where
  refs : Array Nat
  deriving DecidableEq, Repr, Inhabited

namespace SegmentRefs

/-- The segment at the `i`-th position, if there is such a position and its index denotes one. -/
def read (pool : Pool) (s : SegmentRefs) (i : Nat) : Option Segment :=
  s.refs[i]?.bind (pool[·]?)

/-- The denoted segments in order of position; `none` if an index denotes no segment. -/
def resolve (pool : Pool) (s : SegmentRefs) : Option (List Segment) :=
  s.refs.toList.mapM (pool[·]?)

theorem resolve_cons {pool : Pool} {i : Nat} {rest : List Nat} {segs : List Segment} :
    resolve pool ⟨⟨i :: rest⟩⟩ = some segs ↔
      ∃ g gs, pool[i]? = some g ∧ resolve pool ⟨⟨rest⟩⟩ = some gs ∧ segs = g :: gs := by
  unfold resolve
  rw [List.mapM_cons]
  simp only [bind, pure, Option.bind_eq_some_iff, Option.some.injEq, @eq_comm _ _ segs]
  exact ⟨fun ⟨g, hg, gs, hgs, h⟩ => ⟨g, gs, hg, hgs, h⟩,
    fun ⟨g, gs, hg, hgs, h⟩ => ⟨g, hg, gs, hgs, h⟩⟩

/-- The pass over the remaining indices. The one in front of them is given, unless they are all. -/
def testFrom (pool : Pool) : Option Nat → List Nat → TestRun
  | _, [] => ⟨[], some true⟩
  | previous?, i :: rest =>
    if pool.size ≤ i then ⟨[.compare i], some false⟩
    else
      match previous? with
      -- the first segment has none before it to be compared with
      | none => (testFrom pool (some i) rest).behind [.compare i]
      | some h =>
        match pool[h]?, pool[i]? with
        | some previous, some current =>
          if previous.last < current.first then
            (testFrom pool (some i) rest).behind [.compare i, .read h, .read i]
          else ⟨[.compare i, .read h, .read i], some false⟩
        | _, _ => ⟨[.compare i, .read h, .read i], none⟩

/-- The test of a container's indices, access by access. -/
def test (pool : Pool) (s : SegmentRefs) : TestRun := testFrom pool none s.refs.toList

/-- Whether every index denotes a segment and the denoted segments are in order: the answer of the
test. -/
def inOrder (pool : Pool) (s : SegmentRefs) : Bool := (s.test pool).answer.getD false

/-- Indices of segments in order; others are refused. -/
def make? (pool : Pool) (refs : Array Nat) : Except Violation SegmentRefs :=
  if (mk refs).inOrder pool then .ok ⟨refs⟩ else .error .referencesUnordered

/-- Whether the last denoted segment that starts at or before `p` holds `p`; `none` if the search
met an index that denotes no segment. -/
def covers (pool : Pool) (s : SegmentRefs) (p : Point) : Option Bool :=
  holds? (s.read pool) s.refs.size p

def Covers (pool : Pool) (s : SegmentRefs) (p : Point) : Prop :=
  ∃ i ∈ s.refs, ∃ g, pool[i]? = some g ∧ p ∈ g

instance (pool : Pool) (s : SegmentRefs) (p : Point) : Decidable (s.Covers pool p) :=
  decidable_of_iff (∃ i ∈ s.refs, pool[i]?.any (fun g => decide (p ∈ g)) = true) <| by
    simp only [Option.any_eq_true, decide_eq_true_iff]
    rfl

def text (s : SegmentRefs) : String :=
  "\x7b" ++ String.join (s.refs.toList.map (" " ++ toString ·)) ++ " \x7d"

end SegmentRefs

end RefFlow
