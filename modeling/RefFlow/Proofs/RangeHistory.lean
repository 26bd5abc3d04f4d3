import RefFlow.Proofs.Entering
import RefFlow.Proofs.Influence
import RefFlow.Session.Basic
import Mathlib.Logic.Relation
/-!
# Ranges over the life of a session

Ranges of real registers hold indices into a pool that goes on growing after they were checked, and
runs of the analysis write into ranges of both kinds. Of all that a session does, four things are done
to the live ranges (`Liveness.Change`): a segment is put into the pool, a range of either kind is added,
or marks and assignments change. Each keeps every range well formed, and keeps what the ranges that
are there already answer; so does any number of them.

Clients may vouch for segments instead of having them checked; what is said here is said of the
sessions of clients that do not (`Command.Checked`).

Main definitions and statements:

* `Liveness.Change` — one change of live ranges, `Session.step_change` what commands change;
* `Liveness.Checked` — what the checked constructors promise, `Checked.change` its step;
* `Liveness.KeptIn` — later live ranges answer for the earlier ones as these did, and
  `Checked.keptIn` its step;
* `Session.Leads` — from one state of a session to a later one;
* `Session.ranges_wellFormed` — what holds of the ranges in every session.
-/

namespace RefFlow

/-! ### Checked input -/

/-- All segments that pass the check hold a point. -/
theorem Ends.valid_of_mapM {es : List Ends} {gs : List Segment}
    (h : es.mapM (segment · .checked) = .ok gs) : ∀ g ∈ gs, g.Valid := by
  induction es generalizing gs with
  | nil =>
    intro g hg
    rw [← Except.ok.inj h] at hg
    exact absurd hg List.not_mem_nil
  -- all are checked one after the other, and a bad one would have ended it
  | cons e es ih =>
    rw [List.mapM_cons] at h
    obtain ⟨a, ha, h⟩ := bind_eq_ok_iff.1 h
    obtain ⟨as, has, h⟩ := bind_eq_ok_iff.1 h
    rw [← Except.ok.inj h]
    exact List.forall_mem_cons.2 ⟨(Segment.make?_eq_ok_iff.1 ha).2, ih has⟩

theorem Ends.valid_of_pool {es : List Ends} {items : Pool} (h : pool .checked es = .ok items) :
    ∀ g ∈ items, g.Valid := by
  unfold pool at h
  cases hgs : es.mapM (segment · .checked) with
  | error v =>
    rw [hgs] at h
    cases h
  | ok gs =>
    rw [hgs] at h
    obtain rfl := Except.ok.inj h
    exact fun g hg => valid_of_mapM hgs g (List.mem_toArray.1 hg)

/-- A search in the segments of a range does not see the pool grow. -/
theorem SegmentRefs.covers_push {pool : Pool} {s : SegmentRefs} {segs : List Segment}
    (h : s.resolve pool = some segs) (g : Segment) (p : Point) :
    s.covers (pool.push g) p = s.covers pool p := by
  -- all indices denote segments, which stay where they are
  have hread : s.read (pool.push g) = s.read pool := by
    funext i
    rw [(read_of_resolve h).2, (read_of_resolve (resolve_push h g)).2]
  unfold covers
  rw [hread]

namespace Liveness

/-! ### Changes -/

/-- What a session does to live ranges at one time: a valid segment enters the pool, a checked range of
one kind or the other is added, or nothing but marks and assignments changes. -/
inductive Change (l : Liveness) : Liveness → Prop
  | segment {g : Segment} (hg : g.Valid) : Change l (l.pushSegment g)
  | pinned {reg : Reg} {refs : Array Nat} {segs : SegmentRefs} {r : PinnedRange}
      (hsegs : SegmentRefs.make? l.pool refs = .ok segs) (hr : PinnedRange.make? reg segs = .ok r) :
      Change l (l.pushPinned r)
  | vreg {reg : Reg} {items : Array Segment} {segs : Segments} {r : VregRange}
      (hitems : ∀ g ∈ items, g.Valid) (hsegs : Segments.make? items = .ok segs)
      (hr : VregRange.make? reg segs = .ok r) : Change l (l.pushVreg r)
  | bare {l' : Liveness} (h : l'.bare = l.bare) : Change l l'

/-- What the checked constructors promise of the pool and of the ranges. -/
structure Checked (l : Liveness) : Prop where
  pool : ∀ g ∈ l.pool, g.Valid
  pinned : ∀ r ∈ l.pinned, r.WellFormed l.pool
  virtuals : ∀ r ∈ l.virtuals, r.WellFormed

/-- Every range of `l` is in `l'`, with its register, and is live at the same points when asked. -/
structure KeptIn (l l' : Liveness) : Prop where
  reg : ∀ x : Site, x.index < l.count x.kind → l'.reg? x = l.reg? x
  covers : ∀ x : Site, x.index < l.count x.kind →
    ∀ p, Indexed.covers l' p x.kind x.index = Indexed.covers l p x.kind x.index

variable {l l' l'' : Liveness}

theorem checked_empty : empty.Checked where
  pool _ hg := absurd hg (Array.not_mem_empty _)
  pinned _ hr := absurd hr (Array.not_mem_empty _)
  virtuals _ hr := absurd hr (Array.not_mem_empty _)

/-- **One change** keeps what the checked constructors promise. -/
theorem Checked.change (h : l.Checked) (hc : l.Change l') : l'.Checked := by
  cases hc with
  -- the ranges of real registers see the pool grow, and resolve to the same segments
  | @segment g hg =>
    exact ⟨Array.forall_mem_push.2 ⟨hg, h.pool⟩, fun r hr => (h.pinned r hr).push g, h.virtuals⟩
  | pinned hsegs hr =>
    have hrange := PinnedRange.wellFormed_of_make? h.pool hsegs hr
    exact ⟨h.pool, Array.forall_mem_push.2 ⟨hrange, h.pinned⟩, h.virtuals⟩
  | vreg hitems hsegs hr =>
    have hrange := VregRange.wellFormed_of_make? hitems hsegs hr
    exact ⟨h.pool, h.pinned, Array.forall_mem_push.2 ⟨hrange, h.virtuals⟩⟩
  | bare hbare =>
    refine ⟨?_, pinned_wellFormed_of_bare hbare h.pinned, virtuals_wellFormed_of_bare hbare h.virtuals⟩
    rw [pool_eq_of_bare hbare]
    exact h.pool

namespace KeptIn

theorem refl (l : Liveness) : l.KeptIn l := ⟨fun _ _ => rfl, fun _ _ _ => rfl⟩

/-- A range that is kept has not lost its place. -/
theorem lt_count (h : l.KeptIn l') {x : Site} (hx : x.index < l.count x.kind) :
    x.index < l'.count x.kind := by
  rw [← isSome_reg?_iff, h.reg x hx]
  exact isSome_reg?_iff.2 hx

theorem trans (h : l.KeptIn l') (h' : l'.KeptIn l'') : l.KeptIn l'' where
  reg x hx := (h'.reg x (h.lt_count hx)).trans (h.reg x hx)
  covers x hx p := (h'.covers x (h.lt_count hx) p).trans (h.covers x hx p)

theorem of_bare (h : l'.bare = l.bare) : l.KeptIn l' where
  reg x _ := reg?_eq_of_bare h x
  covers x _ p := Indexed.covers_eq_of_bare h p x.kind x.index

/-- A new range goes behind the others of its kind. -/
theorem pushPinned (l : Liveness) (r : PinnedRange) : l.KeptIn (l.pushPinned r) where
  reg x hx := by
    -- a range that is there stands before the new one
    have hne : x ≠ l.fresh .real := by
      rintro rfl
      exact Nat.lt_irrefl _ hx
    rw [reg?_pushPinned, if_neg hne]
  covers := by
    rintro ⟨kind, i⟩ hi p
    cases kind with
    | virtual => rfl
    | real =>
      show ((l.pinned.push r)[i]?.bind fun q => q.segs.covers l.pool p) = _
      rw [Array.getElem?_push_lt hi, ← Array.getElem?_eq_getElem hi]
      rfl

theorem pushVreg (l : Liveness) (r : VregRange) : l.KeptIn (l.pushVreg r) where
  reg x hx := by
    have hne : x ≠ l.fresh .virtual := by
      rintro rfl
      exact Nat.lt_irrefl _ hx
    rw [reg?_pushVreg, if_neg hne]
  covers := by
    rintro ⟨kind, i⟩ hi p
    cases kind with
    | real => rfl
    | virtual =>
      show ((l.virtuals.push r)[i]?.map fun q => q.segs.covers p) = _
      rw [Array.getElem?_push_lt hi, ← Array.getElem?_eq_getElem hi]
      rfl

end KeptIn

/-- Ranges that only refer to what is in the pool do not see it grow. -/
theorem Checked.keptIn_pushSegment (h : l.Checked) (g : Segment) : l.KeptIn (l.pushSegment g) where
  reg _ _ := rfl
  covers := by
    rintro ⟨kind, i⟩ hi p
    cases kind with
    | virtual => rfl
    | real =>
      -- the indices of a range that was checked are all within the smaller pool
      have hget : l.pinned[i]? = some l.pinned[i] := Array.getElem?_eq_getElem hi
      obtain ⟨segs, hresolve, -⟩ := (h.pinned _ (Array.getElem_mem hi)).segs
      show (l.pinned[i]?.bind fun r => r.segs.covers (l.pool.push g) p) =
        l.pinned[i]?.bind fun r => r.segs.covers l.pool p
      rw [hget, Option.bind_some, Option.bind_some]
      exact SegmentRefs.covers_push hresolve g p

/-- **One change** keeps what the ranges that are there answer. -/
theorem Checked.keptIn (h : l.Checked) (hc : l.Change l') : l.KeptIn l' := by
  cases hc with
  | @segment g hg => exact h.keptIn_pushSegment g
  | @pinned reg refs segs r hsegs hr => exact .pushPinned l r
  | @vreg reg items segs r hitems hsegs hr => exact .pushVreg l r
  | bare hbare => exact .of_bare hbare

end Liveness

/-! ### Sessions -/

/-- A command by which a client does not vouch for segments. -/
def Command.Checked : Command → Prop
  | .segment _ trust => trust = .checked
  | .pinned _ _ trust => trust = .checked
  | .vreg _ _ trust => trust = .checked
  | _ => True

instance (c : Command) : Decidable c.Checked := by
  cases c <;> unfold Command.Checked <;> infer_instance

namespace Session

open Liveness (Change Checked KeptIn)

variable {s t s' : Session} {c : Command} {reply : Reply}

theorem checked_eq_ok {α : Type} {r : Except Violation α} {a : α} :
    checked r = .ok a ↔ r = .ok a := by
  cases r with
  | error v => exact ⟨fun h => (nomatch h), fun h => (nomatch h)⟩
  | ok b => exact ⟨fun h => congrArg Except.ok (Except.ok.inj h),
      fun h => congrArg Except.ok (Except.ok.inj h)⟩

/-- A reply that leaves the ranges as they were, marks and assignments apart. -/
private theorem change_of_reply {answer : Reply} (h : (t, answer) = (s', reply))
    (hbare : t.live.bare = s.live.bare) : s.live.Change s'.live := by
  cases h
  exact .bare hbare

/-- A run of the analysis changes marks alone, with any directory and in either store. -/
theorem bare_analyse (s : Session) (sw : Switches) (via : Via) :
    (s.analyse sw via).2.2.live.bare = s.live.bare := by
  -- a run over the table does not get to see the live ranges
  cases via with
  | liveness =>
    exact Liveness.bare_eq_of_unmarkAll
      (Liveness.unmarkAll_propagate s.live sw s.dir s.moves s.request)
  | table => rfl

theorem bare_markAll (s : Session) (ks : List RangeKey) (via : Via) :
    (s.markAll ks via).live.bare = s.live.bare := by
  cases via with
  | liveness => exact Liveness.bare_eq_of_unmarkAll (Indexed.unmarkAll_markAll _ ks)
  | table => rfl

/-- Of the ranges, clearing concerns marks alone. -/
theorem bare_clear (s : Session) (part : Part) : (s.clear part).live.bare = s.live.bare := by
  cases part with
  | marks => exact s.live.bare_unmarkAll
  | moves => rfl
  | seeds => rfl
  | graph => rfl
  | set => rfl

/-- **What a command changes.** A command of a client that does not vouch for segments makes one change
to the live ranges. -/
theorem step_change (hc : c.Checked) (h : s.step c = .ok (s', reply)) :
    s.live.Change s'.live := by
  cases c with
  -- the three commands that make ranges grow
  | segment ends trust =>
    obtain rfl : trust = .checked := hc
    obtain ⟨g, hg, h⟩ := bind_eq_ok_iff.1 h
    cases Except.ok.inj h
    exact .segment (Segment.make?_eq_ok_iff.1 (checked_eq_ok.1 hg)).2
  | pinned reg refs trust =>
    obtain rfl : trust = .checked := hc
    obtain ⟨segs, hsegs, h⟩ := bind_eq_ok_iff.1 h
    obtain ⟨r, hr, h⟩ := bind_eq_ok_iff.1 h
    cases Except.ok.inj h
    exact .pinned (checked_eq_ok.1 hsegs) (checked_eq_ok.1 hr)
  | vreg reg ends trust =>
    obtain rfl : trust = .checked := hc
    obtain ⟨segs, hsegs, h⟩ := bind_eq_ok_iff.1 h
    obtain ⟨r, hr, h⟩ := bind_eq_ok_iff.1 h
    obtain ⟨items, hitems, hsegs⟩ := bind_eq_ok_iff.1 (checked_eq_ok.1 hsegs)
    cases Except.ok.inj h
    exact .vreg (Ends.valid_of_pool hitems) hsegs (checked_eq_ok.1 hr)
  -- the commands that mark and assign
  | assign index reg =>
    unfold step at h
    dsimp only at h
    split at h
    · exact change_of_reply (Except.ok.inj h) (s.live.bare_assign index reg)
    · cases h
  | clear part => exact change_of_reply (Except.ok.inj h) (s.bare_clear part)
  | run via sw =>
    have hbare := s.bare_analyse (sw.getD .off) via
    unfold step at h
    dsimp only at h
    split at h
    · next hrun =>
      rw [hrun] at hbare
      exact change_of_reply (Except.ok.inj h) hbare
    · next hrun =>
      rw [hrun] at hbare
      exact change_of_reply (Except.ok.inj h) hbare
    · cases h
  | mark via name =>
    obtain ⟨k, -, h⟩ := bind_eq_ok_iff.1 h
    exact change_of_reply (Except.ok.inj h) (s.bare_markAll [k] via)
  | markSet via => exact change_of_reply (Except.ok.inj h) (s.bare_markAll s.set.byName via)
  -- all others leave the ranges alone
  | ranges => exact change_of_reply (Except.ok.inj h) rfl
  | index => exact change_of_reply (Except.ok.inj h) rfl
  | setIndex dir => exact change_of_reply (Except.ok.inj h) rfl
  | row reg first last =>
    obtain ⟨row, -, h⟩ := bind_eq_ok_iff.1 h
    exact change_of_reply (Except.ok.inj h) rfl
  | move m => exact change_of_reply (Except.ok.inj h) rfl
  | seed reg => exact change_of_reply (Except.ok.inj h) rfl
  | refClass cls => exact change_of_reply (Except.ok.inj h) rfl
  | marks => exact change_of_reply (Except.ok.inj h) rfl
  | find via point reg =>
    obtain ⟨k, -, h⟩ := bind_eq_ok_iff.1 h
    exact change_of_reply (Except.ok.inj h) rfl
  | insert via reg =>
    obtain ⟨found, -, h⟩ := bind_eq_ok_iff.1 h
    exact change_of_reply (Except.ok.inj h) rfl
  | add name =>
    obtain ⟨k, -, h⟩ := bind_eq_ok_iff.1 h
    exact change_of_reply (Except.ok.inj h) rfl
  | collect via =>
    obtain ⟨refusal, -, h⟩ := bind_eq_ok_iff.1 h
    exact change_of_reply (Except.ok.inj h) rfl
  | edge src dst =>
    obtain ⟨a, -, h⟩ := bind_eq_ok_iff.1 h
    obtain ⟨b, -, h⟩ := bind_eq_ok_iff.1 h
    exact change_of_reply (Except.ok.inj h) rfl
  | addMoves via =>
    obtain ⟨refusal, -, h⟩ := bind_eq_ok_iff.1 h
    exact change_of_reply (Except.ok.inj h) rfl
  | targets name =>
    obtain ⟨k, -, h⟩ := bind_eq_ok_iff.1 h
    exact change_of_reply (Except.ok.inj h) rfl
  | graph => exact change_of_reply (Except.ok.inj h) rfl
  | closure keep =>
    refine change_of_reply (Except.ok.inj h) ?_
    cases keep <;> rfl

/-! ### Histories -/

/-- One step in the life of a session: a command that is carried out; a run of the analysis, whatever
comes of it; or what a client does to marks and assignments, which are open to it. Whether the directory
is up to date for a run is up to the client, who can have it brought up to date by command. -/
inductive Step (s : Session) : Session → Prop
  | command {c : Command} {reply : Reply} {t : Session} (hc : c.Checked)
      (h : s.step c = .ok (t, reply)) : Step s t
  | analysis (sw : Switches) (via : Via) : Step s (s.analyse sw via).2.2
  | writing {live : Liveness} (h : live.bare = s.live.bare) : Step s { s with live }

/-- From one state of a session to a later one. -/
def Leads : Session → Session → Prop := Relation.ReflTransGen Step

theorem Step.change (h : s.Step t) : s.live.Change t.live := by
  cases h with
  | command hc h => exact step_change hc h
  | analysis sw via => exact .bare (s.bare_analyse sw via)
  | writing h => exact .bare h

/-- **The ranges of a session** stay what the checked constructors promise. -/
theorem Leads.checked (h : s.Leads t) (hs : s.live.Checked) : t.live.Checked := by
  induction h with
  | refl => exact hs
  -- each step is one change
  | tail _ hstep ih => exact ih.change hstep.change

/-- **Ranges that a session has** are kept. -/
theorem Leads.keptIn (h : s.Leads t) (hs : s.live.Checked) : s.live.KeptIn t.live := by
  induction h with
  | refl => exact .refl s.live
  -- the ranges are still checked when the last step is taken
  | tail hst hstep ih => exact ih.trans ((Leads.checked hst hs).keptIn hstep.change)

/-- The state after a list of commands, if all of them are carried out. -/
def after (s : Session) (cs : List Command) : Except Halt Session :=
  cs.foldlM (fun s c => (s.step c).map Prod.fst) s

theorem leads_after {cs : List Command} (hcs : ∀ c ∈ cs, c.Checked) (h : s.after cs = .ok t) :
    s.Leads t := by
  unfold after at h
  induction cs generalizing s with
  | nil =>
    obtain rfl := Except.ok.inj h
    exact .refl
  | cons c cs ih =>
    obtain ⟨hc, hcs⟩ := List.forall_mem_cons.1 hcs
    rw [List.foldlM_cons] at h
    obtain ⟨u, hu, h⟩ := bind_eq_ok_iff.1 h
    cases hstep : s.step c with
    | error halt =>
      rw [hstep] at hu
      cases hu
    | ok result =>
      rw [hstep] at hu
      obtain rfl := Except.ok.inj hu
      exact .head (.command hc hstep) (ih hcs h)

/-- **Ranges over the life of a session.** Whatever a client does who does not vouch for segments, and
however runs of the analysis end, at any time `t`:

* every range of a real register is of a real register, its indices are in the pool of that time, and
  they denote segments that hold a point each, in ascending order and pairwise disjoint;
* every range of a virtual register is of a virtual register and has such segments;
* every range that was there at an earlier time `s` is still there, with its register, and answers for
  every point as it did then, which is what its segments say. -/
theorem ranges_wellFormed (hs : Leads start s) (ht : Leads s t) :
    (∀ r ∈ t.live.pinned, r.reg.kind = .real ∧ (∀ i ∈ r.segs.refs, i < t.live.pool.size) ∧
      ∃ segs, r.segs.resolve t.live.pool = some segs ∧ Segment.Ascending segs) ∧
    (∀ r ∈ t.live.virtuals, r.reg.kind = .virtual ∧ Segment.Ascending r.segs.items.toList) ∧
    ∀ x : Site, x.index < s.live.count x.kind → t.live.reg? x = s.live.reg? x ∧
      ∀ p, ∃ b, Indexed.covers s.live p x.kind x.index = some b ∧
        Indexed.covers t.live p x.kind x.index = some b ∧ (b = true ↔ s.live.Covers x p) := by
  have hearlier : s.live.Checked := hs.checked Liveness.checked_empty
  have hlater : t.live.Checked := ht.checked hearlier
  have hkept : s.live.KeptIn t.live := ht.keptIn hearlier
  refine ⟨?_, ?_, ?_⟩
  · intro r hr
    obtain ⟨hreal, segs, hresolve, hascending⟩ := hlater.pinned r hr
    exact ⟨hreal, SegmentRefs.lt_size_of_resolve hresolve, segs, hresolve, hascending⟩
  · intro r hr
    obtain ⟨hvirtual, hascending⟩ := hlater.virtuals r hr
    exact ⟨hvirtual, hascending⟩
  · intro x hx
    refine ⟨hkept.reg x hx, ?_⟩
    intro p
    obtain ⟨b, hb, hiff⟩ := Liveness.exists_covers_eq_some hearlier.pinned hearlier.virtuals hx p
    exact ⟨b, hb, (hkept.covers x hx p).trans hb, hiff⟩

/-- A segment, a range of `r3` that refers to it and a range of `v0`, the directory of both, and a copy
from `v0`, which holds a reference, to `r3`. -/
def entering : List Command := [
  .segment ⟨.defOf 1, .useOf 2⟩ .checked,
  .pinned ⟨.real, .i64, 3⟩ #[0] .checked,
  .vreg ⟨.virtual, .i64, 0⟩ [⟨.defOf 0, .useOf 1⟩] .checked,
  .index, .move ⟨⟨.real, .i64, 3⟩, ⟨.virtual, .i64, 0⟩, 1, 1⟩, .seed ⟨.virtual, .i64, 0⟩]

def entered : Session where
  live := ⟨#[⟨.defOf 1, .useOf 2⟩], #[⟨⟨.real, .i64, 3⟩, ⟨#[0]⟩, false⟩],
    #[⟨⟨.virtual, .i64, 0⟩, none, ⟨#[⟨.defOf 0, .useOf 1⟩]⟩, false⟩]⟩
  dir := ⟨#[[], [], [], [0]], #[[0]]⟩
  table := .empty
  moves := [⟨⟨.real, .i64, 3⟩, ⟨.virtual, .i64, 0⟩, 1, 1⟩]
  request := ⟨.i64, [⟨.virtual, .i64, 0⟩]⟩
  graph := .empty
  set := ∅

/-- More segments, one of them in front of the first, a range of `r4` that refers to all three, and its
assignment to `v0`. -/
def growing : List Command := [
  .segment ⟨.defOf 7, .useOf 9⟩ .checked,
  .segment ⟨.defOf 0, .defOf 0⟩ .checked,
  .pinned ⟨.real, .i64, 4⟩ #[2, 0, 1] .checked,
  .assign 0 (some ⟨.real, .i64, 4⟩)]

def grown : Session where
  live := ⟨#[⟨.defOf 1, .useOf 2⟩, ⟨.defOf 7, .useOf 9⟩, ⟨.defOf 0, .defOf 0⟩],
    #[⟨⟨.real, .i64, 3⟩, ⟨#[0]⟩, false⟩, ⟨⟨.real, .i64, 4⟩, ⟨#[2, 0, 1]⟩, false⟩],
    #[⟨⟨.virtual, .i64, 0⟩, some ⟨.real, .i64, 4⟩, ⟨#[⟨.defOf 0, .useOf 1⟩]⟩, false⟩]⟩
  dir := entered.dir
  table := entered.table
  moves := entered.moves
  request := entered.request
  graph := entered.graph
  set := entered.set

/-- The pool grows after the range of `r3` was added, the analysis is run, and marks are cleared. -/
theorem ranges_wellFormed_grown :
    Leads start entered ∧ Leads entered ((grown.analyse .off .liveness).2.2.clear .marks) ∧
      Indexed.covers ((grown.analyse .off .liveness).2.2.clear .marks).live (.useOf 2) .real 0 =
        some true := by
  have hentered : Leads start entered := leads_after (by decide) (rfl : start.after entering = _)
  have hgrown : Leads entered grown := leads_after (by decide) (rfl : entered.after growing = _)
  have hmarked : Leads grown (grown.analyse .off .liveness).2.2 := .single (.analysis .off .liveness)
  have hcleared : Leads (grown.analyse .off .liveness).2.2
      ((grown.analyse .off .liveness).2.2.clear .marks) :=
    .single (.command (c := .clear .marks) trivial rfl)
  have hlater := hgrown.trans (hmarked.trans hcleared)
  obtain ⟨-, -, hkept⟩ := ranges_wellFormed hentered hlater
  obtain ⟨-, hanswers⟩ := hkept ⟨.real, 0⟩ (by decide)
  obtain ⟨b, -, hb, hiff⟩ := hanswers (.useOf 2)
  obtain rfl : b = true := hiff.2 (by decide)
  exact ⟨hentered, hlater, hb⟩

end Session

end RefFlow
