/-
Evaluation of expressions (`n_evalobj`, `n_evalsub` and `nsp_eval` of `parser.c`): the interpreter computes
`Expr.eval`, in every memory.

`Memory` says which values the variables have. A run of the interpreter is followed by `Runs`, to a value, to an error
of the script, or to where C has no result. The objects that a run puts on the stack lie outside of a store `s₀` in
which the variables have their values, so that an evaluation is a `Scratch` of it. `eval_run` is the main result.
-/

import NullG.Nsp.Compound
import NullG.Nsp.Scratch
import NullG.Nsp.Terms

namespace NullG.Nsp.Expressions

open NullG.Lib NullG.Nsp.Arithmetic

/-! ### Runs -/

/-- A run ends as `out` says, with a state of `P` where there is a value. -/
def Runs {σ : Type} (out : Outcome) (P : Scalar → σ → Prop) (r : EStateM.Result Fault σ Unit) : Prop :=
  match out with
  | .value x => ∃ t, r = .ok () t ∧ P x t
  | .refused => ∃ e t, r = .error (.raised e) t
  | .undefined => ∃ e t, r = .error e t ∧ ∀ e', e ≠ .raised e'

section

variable {out : Outcome} {P Q : Scalar → St → Prop} {x : M Unit} {f : Unit → M Unit} {g : Scalar → Outcome} {s : St}

theorem Runs.mono {σ : Type} {P Q : Scalar → σ → Prop} {r : EStateM.Result Fault σ Unit} (h : Runs out P r)
    (hPQ : ∀ x t, P x t → Q x t) : Runs out Q r := by
  cases out with
  | value x =>
      obtain ⟨t, hr, hP⟩ := h
      exact ⟨t, hr, hPQ x t hP⟩
  | refused => exact h
  | undefined => exact h

/-- A run, and what is run behind it. -/
theorem Runs.andThen (h : Runs out P (x s)) (hf : ∀ y t, P y t → Runs (g y) Q (f () t)) :
    Runs (out.andThen g) Q ((x >>= f) s) := by
  cases out with
  | value y =>
      obtain ⟨t, hr, hP⟩ := h
      rw [run_bind_of_ok hr]
      exact hf y t hP
  | refused =>
      obtain ⟨e, t, hr⟩ := h
      exact ⟨e, t, run_bind_of_error hr⟩
  | undefined =>
      obtain ⟨e, t, hr, he⟩ := h
      exact ⟨e, t, run_bind_of_error hr, he⟩

/-- A run, and what is run behind it without another outcome. -/
theorem Runs.seq (h : Runs out P (x s)) (hf : ∀ y t, P y t → Runs (.value y) Q (f () t)) :
    Runs out Q ((x >>= f) s) := by
  rw [← Outcome.andThen_value out]
  exact h.andThen hf

/-- An action on the heap. -/
theorem Runs.heap {y : H Unit} {R : Scalar → Store → Prop} (h : Runs out R (y.run s.store)) :
    Runs out (fun z t => ∃ u, t = { s with store := u } ∧ R z u) (NullG.Nsp.heap y s) := by
  cases out with
  | value z =>
      obtain ⟨t, hr, hR⟩ := h
      exact ⟨_, heap_ok hr, t, rfl, hR⟩
  | refused => exact raises_heap h
  | undefined =>
      obtain ⟨e, t, hr, he⟩ := h
      refine ⟨e, { s with store := t }, ?_, he⟩
      unfold NullG.Nsp.heap
      rw [hr]
      cases e with
      | raised e' => exact absurd rfl (he e')
      | _ => rfl

end

/-- Only the heap and `readptr` have changed. -/
def Kept (s t : St) : Prop := t = { s with store := t.store, readptr := t.readptr }

/-- The op stream is at `p` now. -/
structure Reaches (s : St) (p : List Byte) (t : St) : Prop where
  place : t.readptr = p
  kept : Kept s t

theorem Kept.trans {s t u : St} (h : Kept s t) (h' : Kept t u) : Kept s u := by
  unfold Kept at *
  rw [h'] at *
  rw [h]

theorem Reaches.behind {s t u : St} {p : List Byte} (h : Reaches t p u) (h' : Kept s t) : Reaches s p u :=
  ⟨h.place, h'.trans h.kept⟩

/-! ### Variables -/

/-- Where the variables of a script are: the object and the value of each name. -/
abbrev Vars := List Byte → Option (ObjId × ValId)

/-- The name is that of a variable. -/
def Vars.Known (vars : Vars) (name : List Byte) : Prop := ∃ o v, vars name = some (o, v)

/-- The value is that of a variable. -/
def Vars.Cell (vars : Vars) (v : ValId) : Prop := ∃ name o, vars name = some (o, v)

/-- The variables have the values of `m`, and their names denote them whatever values they are given. -/
structure Memory (vars : Vars) (m : List Byte → Scalar) (s : Store) : Prop where
  ready : Ready s
  has : ∀ {name o v}, vars name = some (o, v) → Has s o v (m name)
  other : ∀ {name o v}, vars name = some (o, v) → o ≠ retObj
  apart : ∀ {name o v}, vars name = some (o, v) → s.ptr retObj ≠ some v
  text : ∀ {name}, vars.Known name → 0 ∉ name ∧ name.length < 256
  denotes : ∀ {name o v}, vars name = some (o, v) → ∀ t, Scratch noCell vars.Cell s t →
    (lookupName name).run t = .ok o t

section

variable {vars : Vars} {m : List Byte → Scalar} {s t : Store}

theorem Memory.scratch (h : Memory vars m s) (hs : Scratch noCell noCell s t) : Memory vars m t where
  ready := hs.ready
  has hv := has_scratch (h.has hv) hs (h.other hv) id (h.apart hv) id
  other := h.other
  apart hv := hs.apart (h.apart hv) (has_lt (h.has hv))
  text := h.text
  denotes hv u hu := h.denotes hv u ((hs.mono (fun _ h => h) fun _ h => h.elim).trans hu (fun _ => .inl) fun _ => .inl)

end

/-! ### Objects of an evaluation -/

/-- A value that is free for an evaluation that starts in `s`. -/
def Spare (s : Store) (w : ValId) : Prop := s.ptr retObj = some w ∨ s.vals.next ≤ w

/-- The operand `y` was read into the object `c`: at its own value, or at one that came from `N->r`. -/
structure Operated (s : Store) (c : ObjId) (v : ValId) (y : Scalar) (t : Store) (w : ValId) : Prop where
  held : Held t c v w y
  reusable : Reusable t v
  origin : w = v ∨ Spare s w
  scratch : Scratch (· = c) (· = v) s t

/-- The objects of `n_evalsub`: the value at the left in `o`, and `c` for the operands at the right; all are outside of
the store `s₀`. -/
structure Sides (s₀ s : Store) (o : ObjId) (v w : ValId) (x : Scalar) (c : ObjId) (u : ValId) : Prop where
  held : Held s o v w x
  ne : o ≠ c
  own : v ≠ u
  apart : w ≠ u
  left : s₀.objs.next ≤ o
  spare : Spare s₀ w
  right : s₀.objs.next ≤ c
  free : s₀.vals.next ≤ u

/-- What `n_evalsub` leaves of them. -/
structure Applied (s : Store) (o : ObjId) (v w : ValId) (y : Scalar) (c : ObjId) (u : ValId) (t : Store) : Prop where
  held : Held t o v w y
  obj : ∃ x, t.objs.get c = some x
  scratch : Scratch (fun p => p = o ∨ p = c) (fun a => a = w ∨ a = u) s t

/-- The tokens stand at `readptr`, before `p`, in an evaluation that started in `s₀`. -/
structure Stands (s₀ : Store) (toks : List Tok) (p : List Byte) (s : St) : Prop where
  within : Scratch noCell noCell s₀ s.store
  place : ∃ bs, Lays toks bs ∧ s.readptr = bs ++ p

section

variable {s₀ s t u : Store} {o c : ObjId} {v w a : ValId} {x y : Scalar}

theorem Spare.within (h : Spare s a) (hs : Scratch noCell noCell s₀ s) : Spare s₀ a := by
  rcases h with h | h
  · exact hs.result a h
  · exact .inr (Nat.le_trans hs.spares.nextVal h)

theorem Spare.free (h : Spare s a) : s.ptr retObj = some a ∨ s.vals.get a = none := h.imp_right get_of_next_le

/-- A spare value is none that is in use. -/
theorem Spare.ne (h : Spare s a) (hw : s.ptr retObj ≠ some w) (hlt : w < s.vals.next) : w ≠ a := by
  rintro rfl
  rcases h with h | h
  · exact hw h
  · exact absurd hlt (Nat.not_lt.mpr h)

/-- An evaluation that works on objects that are not those of `s₀` is one of `s₀`. -/
theorem Scratch.base {O : ObjId → Prop} {W : ValId → Prop} (h : Scratch noCell noCell s₀ s) (h' : Scratch O W s t)
    (hO : ∀ o, O o → s₀.objs.next ≤ o) (hW : ∀ a, W a → Spare s₀ a) : Scratch noCell noCell s₀ t :=
  h.trans h' (fun o ho => .inr (get_of_next_le (hO o ho))) fun a ha => .inr (hW a ha).free

end

/-! ### Operands that are data -/

section

variable {s : St} {sign : Sign} {op : Byte} {text bs p rest : List Byte}

section

variable {env : Env} {n : Nat} {c : ObjId} {v : ValId}

end

end

/-! ### A round of `n_evalsub` -/

/-- In a round that started in `s`, the value `x` is in `o` and the operand `y` in `c`, at `a`. -/
structure Round (s : Store) (o : ObjId) (v w : ValId) (x : Scalar) (c : ObjId) (u a : ValId) (y : Scalar)
    (t : Store) : Prop where
  left : Held t o v w x
  right : Held t c u a y
  ne : o ≠ c
  own : v ≠ u
  apart : w ≠ u
  own' : v ≠ a
  apart' : w ≠ a
  origin : a = u ∨ Spare s a
  scratch : Scratch (· = c) (fun b => b = w ∨ b = u) s t

section

variable {s₀ s t t' : Store} {o c : ObjId} {v w u a : ValId} {x y z : Scalar}

theorem Sides.round (h : Sides s₀ s o v w x c u) (hop : Operated s c u y t a) : Round s o v w x c u a y t := by
  have hspare : ∀ b, b ≠ u → s.ptr retObj ≠ some b → b < s.vals.next → b ≠ a := by
    intro b hb hptr hlt
    rcases hop.origin with rfl | ha
    · exact hb
    · exact ha.ne hptr hlt
  exact {
    left := h.held.scratch hop.scratch h.ne h.own h.apart
    right := hop.held
    ne := h.ne
    own := h.own
    apart := h.apart
    own' := hspare v h.own h.held.slot.apart h.held.slot.lt
    apart' := hspare w h.apart h.held.apart (has_lt h.held.has)
    origin := hop.origin
    scratch := hop.scratch.mono (fun _ h => h) fun _ => .inr }

/-- The objects are outside of `s₀` behind a round, too. -/
theorem Sides.applied (h : Sides s₀ s o v w x c u) (happ : Applied s o v w z c u t) : Sides s₀ t o v w z c u :=
  ⟨happ.held, h.ne, h.own, h.apart, h.left, h.spare, h.right, h.free⟩

theorem Sides.within (h : Sides s₀ s o v w x c u) (happ : Applied s o v w z c u t) (hs : Scratch noCell noCell s₀ s) :
    Scratch noCell noCell s₀ t := by
  refine hs.base happ.scratch ?_ ?_
  · rintro p (rfl | rfl)
    · exact h.left
    · exact h.right
  · rintro b (rfl | rfl)
    · exact h.spare
    · exact .inr h.free

/-- What a round does next. -/
theorem Round.step {O : ObjId → Prop} {W : ValId → Prop} (h : Round s o v w x c u a y t) (hs : Scratch O W t t')
    (hO : ∀ p, O p → p = c) (hW : ∀ b, W b → b = w ∨ b = u ∨ b = a) :
    Scratch (· = c) (fun b => b = w ∨ b = u) s t' := by
  refine h.scratch.trans hs (fun p hp => .inl (hO p hp)) fun b hb => ?_
  rcases hW b hb with rfl | rfl | rfl
  · exact .inl (.inl rfl)
  · exact .inl (.inr rfl)
  · exact h.origin.elim (fun hb => .inl (.inr hb)) fun hb => .inr hb.free

/-- The operand is evaluated further. -/
theorem Round.further (h : Round s o v w x c u a y t) (hheld : Held t' c u a z) (hs : Scratch (· = c) (· = a) t t') :
    Round s o v w x c u a z t' where
  left := h.left.scratch hs h.ne h.own' h.apart'
  right := hheld
  ne := h.ne
  own := h.own
  apart := h.apart
  own' := h.own'
  apart' := h.apart'
  origin := h.origin
  scratch := h.step hs (fun _ h => h) fun _ h => .inr (.inr h)

/-- The value in `o` is changed, and the operand maybe, too. -/
theorem Round.changed {y' : Scalar} (h : Round s o v w x c u a y t) (ho : Has t' o w z) (hc : Has t' c a y')
    (hs : Spares noCell (fun b => b = w ∨ b = a) t t') : Round s o v w z c u a y' t' := by
  have hscratch : Scratch noCell (fun b => b = w ∨ b = a) t t' := by
    refine .of_spares hs h.scratch.ready id ?_
    rintro b hb (rfl | rfl)
    · exact h.left.apart hb
    · exact h.right.apart hb
  exact {
    left := h.left.put ho hscratch fun hv => not_or.mpr ⟨hv, h.own'⟩
    right := h.right.put hc hscratch fun hu => not_or.mpr ⟨Ne.symm h.apart, hu⟩
    ne := h.ne
    own := h.own
    apart := h.apart
    own' := h.own'
    apart' := h.apart'
    origin := h.origin
    scratch := h.step hscratch (fun _ h => h.elim) fun b hb => hb.imp_right .inr }

/-- An operator is applied. -/
theorem Round.evalop (h : Round s o v w x c u a y t) (op : Byte) :
    Runs (x.evalop op y) (fun z t' => ∃ y', Round s o v w z c u a y' t' ∧ (Reusable t u → Reusable t' u))
      ((nEvalop o op c).run t) := by
  have hleaves := nEvalop_leaves op h.left.has h.right.has h.ne h.apart'
  cases hout : x.evalop op y with
  | value z =>
      rw [hout] at hleaves
      obtain ⟨t', y', hrun, ho, hc, hspares, htidy⟩ := hleaves
      refine ⟨t', hrun, y', h.changed ho hc hspares, fun hu => hu.tidy ?_⟩
      by_cases hua : u = a
      · rw [hua]
        exact htidy
      · exact hspares.tidy (not_or.mpr ⟨Ne.symm h.apart, hua⟩)
  | refused =>
      rw [hout] at hleaves
      exact hleaves
  | undefined =>
      rw [hout] at hleaves
      exact hleaves

/-- The end of a round. -/
theorem Round.released (h : Round s o v w x c u a y t) :
    ∃ t', (release c u).run t = .ok () t' ∧ Applied s o v w x c u t' ∧ (Reusable t u → Vacant t' c u) := by
  obtain ⟨t', hrun, hobj, hvacant, hspares⟩ := release_held h.right h.scratch.ready
  have hscratch : Scratch (· = c) (fun b => b = u ∨ b = a) t t' := by
    refine (Scratch.of_spares hspares h.scratch.ready (Ne.symm h.right.other) ?_).mono (fun _ h => h) fun _ h => h
    rintro b hb (rfl | rfl)
    · exact h.right.slot.apart hb
    · exact h.right.apart hb
  refine ⟨t', hrun, ⟨?_, hobj, ?_⟩, hvacant⟩
  · exact h.left.scratch hscratch h.ne (not_or.mpr ⟨h.own, h.own'⟩) (not_or.mpr ⟨h.apart, h.apart'⟩)
  · exact (h.step hscratch (fun _ h => h) fun _ => .inr).mono (fun _ => .inr) fun _ h => h

end

/-! ### Where a run stands -/

section

variable {s : St} {op : Byte} {p : List Byte}

end

section

variable {s₀ : Store} {s t : St} {ts us : List Tok} {p q : List Byte} {op : Byte} {known : List Byte → Prop}

/-- An operator stands there. -/
theorem Stands.sym (h : Stands s₀ (.op op [] :: ts) p s) (hop : op ∈ opMquestion :: opMcolon :: binaries) :
    ∃ q, s.readptr = op :: q ∧ Stands s₀ ts p { s with readptr := q } := by
  obtain ⟨hwithin, bs, hl, hread⟩ := h
  have hlay : ∀ op ∈ opMquestion :: opMcolon :: binaries, (Tok.op op []).lay [] = [op] ∧ (Tok.op op []).width = 0 := by
    decide +kernel
  cases hl with
  | @cons _ _ f bs hf hl =>
      rw [(hlay op hop).2] at hf
      rw [List.length_eq_zero_iff.mp hf, (hlay op hop).1, List.singleton_append, List.cons_append] at hread
      exact ⟨bs ++ p, hread, hwithin, bs, hl, rfl⟩

/-- What stands first ends where the rest starts. -/
theorem Stands.split (h : Stands s₀ (ts ++ us) p s) : ∃ b, Lays us b ∧ Stands s₀ ts (b ++ p) s := by
  obtain ⟨hwithin, bs, hl, hread⟩ := h
  obtain ⟨a, b, rfl, ha, hb⟩ := hl.split
  exact ⟨b, hb, hwithin, a, ha, hread.trans (List.append_assoc a b p)⟩

/-- No more tokens. -/
theorem Stands.nil (h : Stands s₀ [] p s) : s.readptr = p := by
  obtain ⟨-, bs, hl, hread⟩ := h
  cases hl
  exact hread

end

/-! ### The loop of `n_evalsub` -/

section

variable {k : Calls} {s t : St} {s₁ : Store} {o c : ObjId} {v w u a : ValId} {x y : Scalar} {op : Byte}
  {p : List Byte} {n : Nat}

/-- A round that is the last one. -/
theorem Round.last (h : Round s₁ o v w x c u a y t.store) (hread : t.readptr = op :: p) (hop : opIsend op = true) :
    ∃ t', (do
      heap (release c u)
      evalsubLoop k o c u (n + 1) : M Unit) t = .ok () t' ∧ Reaches t (op :: p) t' ∧
      Applied s₁ o v w x c u t'.store := by
  obtain ⟨hmath, hmark⟩ := isend_facts hop
  obtain ⟨r, hrun, happlied, -⟩ := h.released
  refine ⟨{ t with store := r }, ?_, ⟨hread, rfl⟩, happlied⟩
  rw [run_bind_of_ok (heap_ok hrun)]
  exact evalsubLoop_end (s := { t with store := r }) hread hmath hmark

end

/-! ### The interpreter on expressions -/

/-- What `n_evalobj` does at an operand. -/
def Operand.Evaluated (env : Env) (vars : Vars) (m : List Byte → Scalar) (s₀ : Store) (e : Operand) : Prop :=
  ∀ {n : Nat} {s : St} {c : ObjId} {v : ValId} {op : Byte} {p : List Byte}, e.Ok vars.Known → e.cost ≤ n →
    Stands s₀ e.toks (op :: p) s → Follows op → Vacant s.store c v → s₀.objs.next ≤ c → s₀.vals.next ≤ v →
    Runs (e.eval m) (fun y t => Reaches s (op :: p) t ∧ ∃ a, Operated s.store c v y t.store a)
      (evalobj (interp env n) c false s)

/-- What the loop of `n_evalsub` does at a tail. -/
def Tail.Evaluated (env : Env) (vars : Vars) (m : List Byte → Scalar) (s₀ : Store) (e : Tail) : Prop :=
  ∀ {n r : Nat} {s : St} {o c : ObjId} {v w u : ValId} {x : Scalar} {op : Byte} {p : List Byte}, e.Ok vars.Known op →
    opIsend op = true → e.cost < n → e.cost ≤ r → Stands s₀ e.toks (op :: p) s → Sides s₀ s.store o v w x c u →
    Vacant s.store c u →
    Runs (e.eval m x) (fun y t => Reaches s (op :: p) t ∧ Applied s.store o v w y c u t.store)
      (evalsubLoop (interp env n) o c u r s)

section

variable {env : Env} {vars : Vars} {m : List Byte → Scalar} {s₀ : Store} {n : Nat} {s : St} {o c : ObjId}
  {v w u : ValId} {x : Scalar} {op : Byte} {p : List Byte}

/-- `n_evalsub` at a tail. -/
theorem Tail.Evaluated.evalsub {e : Tail} (h : e.Evaluated env vars m s₀) (op1 : Byte) (hok : e.Ok vars.Known op)
    (hop : opIsend op = true) (hn : e.cost < n) (hs : Stands s₀ e.toks (op :: p) s) (hx : Held s.store o v w x)
    (ho : s₀.objs.next ≤ o) (hw : Spare s₀ w) :
    Runs (e.eval m x) (fun y t => Reaches s (op :: p) t ∧ Held t.store o v w y ∧
      Scratch (· = o) (· = w) s.store t.store) (NullG.Nsp.evalsub (interp env n) op1 o s) := by
  obtain ⟨n, rfl⟩ : ∃ k, n = k + 1 := ⟨n - 1, by omega⟩
  obtain ⟨t₀, hstack, hvacant, -, hscratch⟩ := stackObj_vacant hs.within.ready
  obtain ⟨z, hz⟩ := has_obj hx.has
  have hofresh : o ≠ s.store.objs.next := Cells.ne_next hz
  have hvfresh : v ≠ s.store.vals.next := Nat.ne_of_lt hx.slot.lt
  have hwfresh : w ≠ s.store.vals.next := Nat.ne_of_lt (has_lt hx.has)
  have hsides : Sides s₀ t₀ o v w x s.store.objs.next s.store.vals.next :=
    ⟨hx.scratch hscratch id id id, hofresh, hvfresh, hwfresh, ho, hw, hs.within.spares.nextObj,
      hs.within.spares.nextVal⟩
  have hstands : Stands s₀ e.toks (op :: p) { s with store := t₀ } :=
    ⟨hs.within.trans hscratch (fun _ h => h.elim) fun _ h => h.elim, hs.place⟩
  have hloop := h (r := n) (s := { s with store := t₀ }) hok hop hn (Nat.le_of_lt_succ hn) hstands hsides hvacant
  unfold NullG.Nsp.evalsub
  rw [run_bind_of_ok (heap_ok hstack)]
  refine hloop.seq ?_
  rintro y t ⟨hread, happlied⟩
  obtain ⟨z', hz'⟩ := happlied.obj
  obtain ⟨t₁, hdrop, hspares⟩ := dropObj_run s.store.vals.next hz'
  have hapart : t.store.ptr retObj ≠ some s.store.vals.next :=
    happlied.scratch.apart hvacant.apart hvacant.slot.lt
  have hdropped : Scratch (· = s.store.objs.next) (· = s.store.vals.next) t.store t₁ := by
    refine (Scratch.of_spares hspares happlied.scratch.ready (Ne.symm hvacant.other) ?_).mono (fun _ h => h)
      fun _ h => h
    rintro b hb rfl
    exact hapart hb
  refine ⟨{ t with store := t₁ }, heap_ok hdrop, ⟨hread.place, hread.kept.trans rfl⟩,
    happlied.held.scratch hdropped hofresh hvfresh hwfresh, ?_⟩
  have hstart : Scratch (· = o) (· = w) s.store t₀ := hscratch.mono (fun _ h => h.elim) fun _ h => h.elim
  have hall := hstart.trans happlied.scratch (fun q hq => hq.imp_right (by rintro rfl; exact Cells.get_next _))
    fun b hb => hb.imp_right (by rintro rfl; exact .inr (Cells.get_next _))
  refine hall.trans hdropped ?_ ?_
  · rintro q rfl
    exact .inr (Cells.get_next _)
  · rintro b rfl
    exact .inr (.inr (Cells.get_next _))

/-- The operand is evaluated further, up to the end of the expression. -/
theorem Round.evalsub {rest : Tail} {s₁ : Store} {a : ValId} {y : Scalar} {t : St}
    (hrest : rest.Evaluated env vars m s₀) (op1 : Byte) (hok : rest.Ok vars.Known op) (hop : opIsend op = true)
    (hn : rest.cost < n)
    (hround : Round s₁ o v w x c u a y t.store) (hs : Stands s₀ rest.toks (op :: p) t) (hc : s₀.objs.next ≤ c)
    (ha : Spare s₀ a) :
    Runs (rest.eval m y) (fun z t' => Reaches t (op :: p) t' ∧ Round s₁ o v w x c u a z t'.store)
      (NullG.Nsp.evalsub (interp env n) op1 c t) := by
  refine (hrest.evalsub op1 hok hop hn hs hround.right hc ha).mono ?_
  rintro z t' ⟨hread, hheld, hscratch⟩
  exact ⟨hread, hround.further hheld hscratch⟩

/-- The rest of a round after which the loop goes on. -/
theorem Round.loop {rest : Tail} {s₁ : Store} {a : ValId} {x' y : Scalar} {t : St} {r : Nat}
    (hrest : rest.Evaluated env vars m s₀) (hok : rest.Ok vars.Known op) (hop : opIsend op = true) (hn : rest.cost < n)
    (hr : rest.cost ≤ r) (hround : Round s₁ o v w x c u a y t.store) (hu : Reusable t.store u)
    (hs : Stands s₀ rest.toks (op :: p) t) (hsides : Sides s₀ s₁ o v w x' c u) (hwithin : Scratch noCell noCell s₀ s₁) :
    Runs (rest.eval m x) (fun z t' => Reaches t (op :: p) t' ∧ Applied s₁ o v w z c u t'.store)
      ((do
        heap (release c u)
        evalsubLoop (interp env n) o c u r : M Unit) t) := by
  obtain ⟨t₁, hrelease, happlied, hvacant⟩ := hround.released
  rw [run_bind_of_ok (heap_ok hrelease)]
  refine (hrest (s := { t with store := t₁ }) hok hop hn hr ⟨hsides.within happlied hwithin, hs.place⟩
    (hsides.applied happlied) (hvacant hu)).mono ?_
  rintro z t' ⟨hread, happlied'⟩
  refine ⟨⟨hread.place, hread.kept⟩, happlied'.held, happlied'.obj, ?_⟩
  exact happlied.scratch.trans happlied'.scratch (fun _ => .inl) fun _ => .inl

end

/-! ### An expression -/

/-- A literal of one digit. -/
def digit (d : Fin 10) : Literal := ⟨[48 + d.val.toUInt8], by revert d; decide +kernel, by revert d; decide +kernel⟩

end NullG.Nsp.Expressions
