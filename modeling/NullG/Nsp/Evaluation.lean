/-
Runs of `n_evalobj`, `n_evalsub` and `nsp_eval` on the objects of an evaluation.

The rules for single ops and operands are stated once here; `Compound` puts them together along an
expression.
-/

import NullG.Nsp.Exec
import NullG.Nsp.Registers

namespace NullG.Nsp

open NullG.Lib

/-! ### Ops -/

section

variable {s : St} {op : Byte} {p : List Byte}

theorem heap_ok {α : Type} {x : H α} {a : α} {t : Store} (h : x.run s.store = .ok a t) :
    heap x s = .ok a { s with store := t } := by
  unfold heap
  rw [h]

theorem ofExcept_run {α : Type} (a : α) (s : St) : (ofExcept (.ok a) : M α) s = .ok a s := rfl

theorem cur_at (h : s.readptr = op :: p) : cur s = .ok op s := by
  show ofExcept (deref s.readptr) s = _
  rw [h]
  rfl

theorem skip_run (n : Nat) : skip n s = .ok () { s with readptr := s.readptr.drop n } := rfl

theorem peekop_at (h : s.readptr = op :: p) (hop : op ≠ opLinenum) : peekop s = .ok op s := by
  have hws : nSkipWs (op :: p) = .ok (op :: p) := by
    show (if op = opLinenum then _ else _ : Except Fault (List Byte)) = _
    rw [if_neg hop]
    rfl
  have hmarkers : skipMarkers s = .ok () s := by
    show (ofExcept (nSkipWs s.readptr) >>= _ : M Unit) s = _
    rw [h, hws]
    rw [run_bind_of_ok (ofExcept_run _ s), if_neg (Nat.lt_irrefl _)]
    rfl
  unfold peekop
  rw [run_bind_of_ok hmarkers]
  exact cur_at h

end

/-! ### Literals -/

/-- A number as it stands in an op stream: its digits. -/
structure Literal where
  text : List Byte
  digit : ∀ c ∈ text, ncIsdigit c
  short : text.length < 256

/-- The number of a literal. -/
def Literal.value (e : Literal) : Num := (digits 0 e.text).1

/-- The op of a literal. -/
def Literal.stream (e : Literal) : List Byte := encTok (.op opNumdata e.text)

section

variable {k : Calls} {s : St} {o : ObjId} {v : ValId} {y : Val} {rest : List Byte}

/-- The value when a number is stored. -/
abbrev Val.numbered (y : Val) (q : Num) : Val := { y.retyped .number with d := .num q }

end

/-! ### The loop of `n_evalsub` -/

section

variable {k : Calls} {s t : St} {obj1 obj2 : ObjId} {val2 : ValId} {y : Val} {op : Byte} {p : List Byte} {n : Nat}

theorem ne_linenum_of_math (h : opIsmath op = true) : op ≠ opLinenum := by
  rintro rfl
  exact absurd h (by decide)

/-- The loop ends before an op that is no operator. -/
theorem evalsubLoop_end (hread : s.readptr = op :: p) (hop : opIsmath op = false) (hmark : op ≠ opLinenum) :
    evalsubLoop k obj1 obj2 val2 (n + 1) s = .ok () s := by
  show (peekop >>= _ : M Unit) s = _
  rw [run_bind_of_ok (peekop_at hread hmark), hop]
  rfl

/-- What a round of the loop leaves behind the operator was applied. -/
theorem release_run (hlook : t.store.look obj2 = .ok (val2, y)) (hv : val2 ≠ nullVal) (hp : y.Plain) :
    ∃ u, (do
        let x ← getObj obj2
        if x.val ≠ some val2 then
          nspUnlinkval obj2
          linkPtr obj2 val2
        nFreeval obj2 : H Unit).run t.store = .ok () u ∧ Sets t.store obj2 val2 y.freed u := by
  obtain ⟨x, hx, hval⟩ := getObj_look hlook
  obtain ⟨u, hfree, hsets⟩ := nFreeval_run hlook hv hp.light
  refine ⟨u, ?_, hsets⟩
  rw [Action.run_bind_ok hx, if_neg (not_not.mpr hval)]
  exact hfree

/-- The start of a round of the loop with an operator other than `&&`. -/
theorem evalsubLoop_head (hread : s.readptr = op :: p) (hmath : opIsmath op = true) (hand : op ≠ opMland) :
    evalsubLoop k obj1 obj2 val2 (n + 1) s = (do
      evalsubOp k op obj1 obj2
      heap (do
        let x ← getObj obj2
        if x.val ≠ some val2 then
          nspUnlinkval obj2
          linkPtr obj2 val2
        nFreeval obj2)
      evalsubLoop k obj1 obj2 val2 n : M Unit) { s with readptr := p } := by
  have hskip : skip 1 s = .ok () { s with readptr := p } := by
    rw [skip_run, hread]
    rfl
  have hshort : heap (if op = opMland then (do return !(← nspTobool obj1)) else pure false)
      { s with readptr := p } = .ok false { s with readptr := p } := by
    rw [if_neg hand]
    exact heap_ok rfl
  show (peekop >>= _ : M Unit) s = _
  rw [run_bind_of_ok (peekop_at hread (ne_linenum_of_math hmath)), hmath]
  show (skip 1 >>= _ : M Unit) s = _
  rw [run_bind_of_ok hskip, run_bind_of_ok hshort]
  rfl

/-- A round of the loop with an operator other than `&&`. -/
theorem evalsubLoop_round (hread : s.readptr = op :: p) (hmath : opIsmath op = true) (hand : op ≠ opMland)
    (hrun : evalsubOp k op obj1 obj2 { s with readptr := p } = .ok () t)
    (hlook : t.store.look obj2 = .ok (val2, y)) (hv : val2 ≠ nullVal) (hp : y.Plain) :
    ∃ u, evalsubLoop k obj1 obj2 val2 (n + 1) s = evalsubLoop k obj1 obj2 val2 n { t with store := u } ∧
      Sets t.store obj2 val2 y.freed u := by
  obtain ⟨u, hrelease, hsets⟩ := release_run hlook hv hp
  refine ⟨u, ?_, hsets⟩
  rw [evalsubLoop_head hread hmath hand, run_bind_of_ok hrun, run_bind_of_ok (heap_ok hrelease)]

end

/-! ### `nsp_eval` -/

/-- What `nsp_eval` evaluates in the object `o`. -/
def evalOn (k : Calls) (o : ObjId) (p : List Byte) : M Unit := do
  goto p
  evalobj k o false
  k.evalsub 0 o

section

variable {k : Calls} {s t : St} {u : Store} {p : List Byte} {o : ObjId} {v w : ValId} {z : Val}

/-- A value that `nsp_eval` can move to `N->r`. -/
structure Gives (s : Store) (o : ObjId) (w : ValId) (z : Val) : Prop where
  ready : Ready s
  look : s.look o = .ok (w, z)
  other : o ≠ retObj
  apart : s.ptr retObj ≠ some w
  notNull : w ≠ nullVal
  sound : z.Sound
  unshared : z.type = .table ∨ z.type = .cdata → z.refs ≤ 1

theorem nspEval_run (hstack : stackObj.run s.store = .ok (o, v) u)
    (hon : evalOn k o p { s with store := u } = .ok () t) (hgives : Gives t.store o w z)
    (hv : v < t.store.vals.next) (hv' : t.store.ptr retObj ≠ some v) :
    ∃ t' a, ∃ y : Val, nspEval k p s = .ok () { t with store := t' } ∧ t'.look retObj = .ok (a, y.fill z) ∧
      y.type = z.type ∧ y.ztable = none ∧ (t.store.ptr retObj = some a ∨ a = t.store.vals.next) ∧
      Spares (fun b => b = retObj ∨ b = o) (fun b => b = w ∨ b = v ∨ t.store.ptr retObj = some b)
        t.store t' := by
  obtain ⟨t₁, a, y, hgive, hret, htype, hztable, ha, ⟨x, hx⟩, hspares⟩ := giveResult_run v hgives.ready
    hgives.look hgives.other hgives.apart hgives.notNull hgives.sound hgives.unshared
  obtain ⟨t₂, hdrop, hdropped⟩ := dropObj_run v hx
  have hav : a ≠ v := by
    rintro rfl
    rcases ha with ha | rfl
    · exact hv' ha
    · exact Nat.lt_irrefl _ hv
  obtain ⟨_, t₀, hgoto, hon⟩ := bind_run_ok hon
  obtain ⟨_, t₀', hobj, hsub⟩ := bind_run_ok hon
  refine ⟨t₂, a, y, ?_, hdropped.look (Ne.symm hgives.other) hav hret, htype, hztable, ha, ?_⟩
  · have hgive' : heap (giveResult o v) t = .ok () { t with store := t₁ } := heap_ok hgive
    have hdrop' : heap (dropObj o v) { t with store := t₁ } = .ok () { t with store := t₂ } := heap_ok hdrop
    unfold nspEval
    rw [run_bind_of_ok (heap_ok hstack)]
    show (goto p >>= _ : M Unit) _ = _
    rw [run_bind_of_ok hgoto, run_bind_of_ok hobj, run_bind_of_ok hsub, run_bind_of_ok hgive', hdrop']
  · refine (hspares.mono (fun _ h => h) fun b hb => ?_).trans hdropped (fun _ h => .inl (.inr h))
      fun _ h => .inl (.inr (.inl h))
    exact hb.imp_right .inr

end

end NullG.Nsp
