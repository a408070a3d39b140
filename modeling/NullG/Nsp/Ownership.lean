/-
The memory that may be written.

A `Fence` divides the memory into what is older than a given store, the entries of the globals, to which new ones
are added, and what else is new. Writes to new values and objects, and to the links of the globals, leave everything
that is older as it was (`Fenced`).
-/

import NullG.Lib.Runs
import NullG.Nsp.Sharing

namespace NullG.Nsp

open NullG.Lib

/-- The addresses in the union of a value have `P`. -/
def Data.Links (P : ObjId → Prop) : Data → Prop
  | .table f i l => (∀ p ∈ f, P p) ∧ (∀ p ∈ i, P p) ∧ ∀ p ∈ l, P p
  | _ => True

/-- `_nullval`, as the process starts with it. -/
def nullval : Val := { type := .null, stackval := true }

/-- A division of the memory: the store before, the entries of its globals and the names that may be added to them; the
entries now, the names that were added, those of the new entries that are tables, and what the null value holds. -/
structure Fence where
  base : Store
  olds : List ObjId
  allowed : List (List Byte)
  entries : List ObjId
  names : List (List Byte)
  tables : List ObjId
  nul : Val

/-- The parts of the memory that may be written. -/
inductive Zone where
  | globals
  | mine

/-- The objects of a zone: the entries of the globals, or what else is new. -/
def Zone.Has (F : Fence) : Zone → ObjId → Prop
  | .globals, o => o ∈ F.entries
  | .mine, o => F.base.objs.next ≤ o ∧ o ∉ F.entries

/-- The objects of a zone that there are. -/
def Zone.At (F : Fence) (s : Store) (z : Zone) (o : ObjId) : Prop := z.Has F o ∧ o < s.objs.next

/-- The values of a zone. -/
def Zone.HasVal (F : Fence) : Zone → ValId → Prop
  | .globals, v => F.base.ptr globalObj = some v
  | .mine, v => F.base.vals.next ≤ v

/-- The objects whose value is the table of a zone. -/
def Zone.IsTable (F : Fence) : Zone → ObjId → Prop
  | .globals, t => t = globalObj
  | .mine, t => F.base.objs.next ≤ t

/-- A store with globals that have none of the names `allowed`, and with the null value as it was at the start. -/
structure Prepared (b : Store) (olds : List ObjId) (allowed : List (List Byte)) : Prop where
  linked : ∀ o ∈ olds, ∃ x, b.objs.get o = some x ∧ (∀ p ∈ x.next, p ∈ olds) ∧ (∀ p ∈ x.prev, p ∈ olds) ∧
    ∀ w ∈ allowed, nameCmp x.name w ≠ 0
  globals : ∃ v y f i l, b.look globalObj = .ok (v, y) ∧ y.type = .table ∧ y.d = .table (some f) i l ∧
    y.d.Links (· ∈ olds) ∧ v ≠ nullVal
  notEntry : globalObj ∉ olds ∧ nullObj ∉ olds
  ret : retObj < b.objs.next
  null : b.ptr nullObj = some nullVal ∧ b.vals.get nullVal = some nullval
  made : ∀ o v, b.ptr o = some v → v < b.vals.next
  plain : ∀ w ∈ allowed, nameNval w = -1 ∧ 0 ∉ w ∧ clip w = w

/-- Only the new part of the memory, the links of the globals and the null value differ from the store before. -/
structure Fenced (F : Fence) (s : Store) : Prop where
  ready : Prepared F.base F.olds F.allowed
  objsNext : F.base.objs.next ≤ s.objs.next
  valsNext : F.base.vals.next ≤ s.vals.next
  objs : ∀ o x, F.base.objs.get o = some x → o ∉ F.olds → s.objs.get o = some x
  olds : ∀ o ∈ F.olds, o ∈ F.entries ∧
    ∀ x, F.base.objs.get o = some x → ∃ p n, s.objs.get o = some { x with prev := p, next := n }
  vals : ∀ v y, F.base.vals.get v = some y → v ≠ nullVal → F.base.ptr globalObj ≠ some v → s.vals.get v = some y
  null : s.vals.get nullVal = some F.nul
  globals : ∀ v y, F.base.look globalObj = .ok (v, y) →
    ∃ f i l, s.vals.get v = some { y with d := .table (some f) i l }
  names : ∀ w ∈ F.names, w ∈ F.allowed
  new : ∀ o ∈ F.entries, o ∉ F.olds → F.base.objs.next ≤ o ∧ ∃ x, s.objs.get o = some x ∧ x.name ∈ F.names
  linked : ∀ z : Zone, ∀ o x, z.Has F o → s.objs.get o = some x →
    (∀ p ∈ x.next, z.At F s p) ∧ ∀ p ∈ x.prev, z.At F s p
  links : ∀ z : Zone, ∀ v y, z.HasVal F v → s.vals.get v = some y → y.d.Links (z.At F s)
  ztable : ∀ v y, F.base.vals.next ≤ v → s.vals.get v = some y → y.ztable = none
  values : ∀ o v, F.base.objs.next ≤ o → s.ptr o = some v → F.base.vals.next ≤ v
  single : ∀ o p v, F.base.vals.next ≤ v → s.ptr o = some v → s.ptr p = some v → o = p
  made : ∀ o v, s.ptr o = some v → v < s.vals.next
  tables : ∀ t ∈ F.tables, t ∈ F.entries ∧ t ∉ F.olds ∧ ∃ v y, s.look t = .ok (v, y) ∧ y.type = .table

/-- The memory is fenced, whatever was added to the globals. -/
def Fence.Kept (F : Fence) (s : Store) : Prop :=
  ∃ entries names tables, Fenced { F with entries := entries, names := names, tables := tables } s

section Fenced

variable {F : Fence} {s s' : Store} {o t : ObjId} {v : ValId} {x : Obj} {y : Val} {z : Zone}

theorem Zone.at_congr (hobjs : s'.objs = s.objs) : z.At F s' = z.At F s := by
  funext o
  rw [Zone.At, Zone.At, hobjs]

theorem Zone.At.mono (h : z.At F s o) (hnext : s.objs.next ≤ s'.objs.next) : z.At F s' o :=
  ⟨h.1, Nat.lt_of_lt_of_le h.2 hnext⟩

theorem Data.Links.mono {P Q : ObjId → Prop} {d : Data} (h : d.Links P) (hPQ : ∀ o, P o → Q o) : d.Links Q := by
  cases d with
  | table f i l => exact ⟨fun p hp => hPQ p (h.1 p hp), fun p hp => hPQ p (h.2.1 p hp), fun p hp => hPQ p (h.2.2 p hp)⟩
  | num q => trivial
  | str b => trivial
  | cfunc g => trivial

theorem Fenced.kept (h : Fenced F s) : F.Kept s := ⟨F.entries, F.names, F.tables, h⟩

/-- The memory is fenced as long as nothing is written. -/
theorem Prepared.fenced {b : Store} {olds : List ObjId} {allowed : List (List Byte)} (h : Prepared b olds allowed) :
    Fenced ⟨b, olds, allowed, olds, [], [], nullval⟩ b := by
  have hlt : ∀ {p}, p ∈ olds → p < b.objs.next := by
    intro p hp
    obtain ⟨x, hx, -⟩ := h.linked p hp
    exact Cells.lt_next hx
  have hnone : ∀ {o x}, b.objs.get o = some x → ¬ b.objs.next ≤ o :=
    fun hx hle => absurd (Cells.lt_next hx) (Nat.not_lt_of_le hle)
  refine ⟨h, Nat.le_refl _, Nat.le_refl _, fun o x hx _ => hx, fun o ho => ⟨ho, fun x hx => ⟨x.prev, x.next, hx⟩⟩,
    fun v y hy _ _ => hy, h.null.2, ?_, by simp, ?_, ?_, ?_, ?_, ?_, ?_, h.made, by simp⟩
  · intro v y hlook
    obtain ⟨v', y', f, i, l, hlook', -, hd, -⟩ := h.globals
    rw [hlook] at hlook'
    cases hlook'
    refine ⟨f, i, l, ?_⟩
    rw [← hd]
    exact (Store.ptr_of_look hlook).2
  · exact fun o ho hnot => absurd ho hnot
  · intro z o x ho hx
    cases z with
    | mine => exact absurd ho.1 (hnone hx)
    | globals =>
        obtain ⟨x', hx', hn, hp, -⟩ := h.linked o ho
        have hx : b.objs.get o = some x := hx
        rw [hx] at hx'
        obtain rfl := Option.some.inj hx'
        exact ⟨fun q hq => ⟨hn q hq, hlt (hn q hq)⟩, fun q hq => ⟨hp q hq, hlt (hp q hq)⟩⟩
  · intro z v y hz hy
    cases z with
    | mine => exact absurd (Cells.lt_next hy) (Nat.not_lt_of_le hz)
    | globals =>
        obtain ⟨v', y', f, i, l, hlook, -, -, hlinks, -⟩ := h.globals
        obtain ⟨hptr, hy'⟩ := Store.ptr_of_look hlook
        have hz : b.ptr globalObj = some v := hz
        rw [hptr] at hz
        obtain rfl := Option.some.inj hz
        have hy : b.vals.get v' = some y := hy
        rw [hy] at hy'
        obtain rfl := Option.some.inj hy'
        exact hlinks.mono fun q hq => ⟨hq, hlt hq⟩
  · exact fun v y hv hy => absurd (Cells.lt_next hy) (Nat.not_lt_of_le hv)
  · intro o v ho hv
    obtain ⟨x, hx, -⟩ := Option.bind_eq_some_iff.mp hv
    exact absurd ho (hnone hx)
  · exact fun o p v hv ho _ => absurd (h.made o v ho) (Nat.not_lt_of_le hv)

theorem Fenced.globalPtr (h : Fenced F s) : s.ptr globalObj = F.base.ptr globalObj := by
  obtain ⟨v, y, f, i, l, hlook, -⟩ := h.ready.globals
  obtain ⟨x, hx, hv⟩ := Option.bind_eq_some_iff.mp (Store.ptr_of_look hlook).1
  rw [Store.ptr, Store.ptr, h.objs _ _ hx h.ready.notEntry.1, hx]

/-- The value of a table of a zone is one of the zone's values. -/
theorem Fenced.hasVal (h : Fenced F s) (ht : z.IsTable F t) (hv : s.ptr t = some v) : z.HasVal F v := by
  cases z with
  | globals =>
      have ht : t = globalObj := ht
      subst ht
      show F.base.ptr globalObj = some v
      rw [← h.globalPtr]
      exact hv
  | mine => exact h.values t v ht hv

theorem Fenced.entry_lt (h : Fenced F s) (ho : o ∈ F.entries) : o < s.objs.next := by
  by_cases hold : o ∈ F.olds
  · obtain ⟨x, hx, -⟩ := h.ready.linked o hold
    exact Nat.lt_of_lt_of_le (Cells.lt_next hx) h.objsNext
  · obtain ⟨-, x, hx, -⟩ := h.new o ho hold
    exact Cells.lt_next hx

/-- The next object is of the zone `mine`. -/
theorem Fenced.mine_next (h : Fenced F s) : Zone.mine.Has F s.objs.next :=
  ⟨h.objsNext, fun hmem => absurd (h.entry_lt hmem) (Nat.lt_irrefl _)⟩

/-- Values are written. -/
theorem Fenced.of_vals (h : Fenced F s) (hobjs : s'.objs = s.objs) (hnext : s.vals.next ≤ s'.vals.next)
    (hold : ∀ v, v < F.base.vals.next → F.base.ptr globalObj ≠ some v → s'.vals.get v = s.vals.get v)
    (hglobals : ∀ v y, F.base.ptr globalObj = some v → s.vals.get v = some y →
      (s'.vals.get v = some y ∨ ∃ f i l, s'.vals.get v = some { y with d := .table (some f) i l } ∧
        (Data.table (some f) i l).Links (Zone.globals.At F s)))
    (hnew : ∀ v y, F.base.vals.next ≤ v → s'.vals.get v = some y → y.ztable = none ∧ y.d.Links (Zone.mine.At F s))
    (htables : ∀ t ∈ F.tables, ∀ v y, s.look t = .ok (v, y) → y.type = .table →
      ∃ y', s'.vals.get v = some y' ∧ y'.type = .table) : Fenced F s' where
  ready := h.ready
  objsNext := by
    rw [hobjs]
    exact h.objsNext
  valsNext := Nat.le_trans h.valsNext hnext
  objs := by
    rw [hobjs]
    exact h.objs
  olds := by
    rw [hobjs]
    exact h.olds
  vals := by
    intro v y hy hne hg
    rw [hold v (Cells.lt_next hy) hg]
    exact h.vals v y hy hne hg
  null := by
    obtain ⟨v, y, f, i, l, hlook, -, -, -, hne⟩ := h.ready.globals
    rw [hold nullVal (Cells.lt_next h.ready.null.2)]
    · exact h.null
    · rw [(Store.ptr_of_look hlook).1]
      intro heq
      exact hne (Option.some.inj heq)
  globals := by
    intro v y hlook
    obtain ⟨f, i, l, hy⟩ := h.globals v y hlook
    rcases hglobals v _ (Store.ptr_of_look hlook).1 hy with hsame | ⟨f', i', l', hy', -⟩
    · exact ⟨f, i, l, hsame⟩
    · exact ⟨f', i', l', hy'⟩
  names := h.names
  new := by
    rw [hobjs]
    exact h.new
  linked := by
    intro z o x ho hx
    rw [hobjs] at hx
    rw [Zone.at_congr hobjs]
    exact h.linked z o x ho hx
  links := by
    intro z v y hz hy
    rw [Zone.at_congr hobjs]
    cases z with
    | mine => exact (hnew v y hz hy).2
    | globals =>
        obtain ⟨v', y', f, i, l, hlook, -⟩ := h.ready.globals
        have hv : v = v' := by
          have hz : F.base.ptr globalObj = some v := hz
          rw [(Store.ptr_of_look hlook).1] at hz
          exact (Option.some.inj hz).symm
        subst hv
        obtain ⟨f', i', l', hs⟩ := h.globals v y' hlook
        rcases hglobals v _ hz hs with hsame | ⟨f'', i'', l'', hy', hlinks⟩
        · rw [hsame] at hy
          obtain rfl := Option.some.inj hy
          exact h.links .globals v _ hz hs
        · rw [hy'] at hy
          obtain rfl := Option.some.inj hy
          exact hlinks
  ztable := fun v y hv hy => (hnew v y hv hy).1
  values := by
    intro o v ho hv
    rw [Store.ptr, hobjs] at hv
    exact h.values o v ho hv
  single := by
    intro o p v hv ho hp
    rw [Store.ptr, hobjs] at ho hp
    exact h.single o p v hv ho hp
  made := by
    intro o v hv
    rw [Store.ptr, hobjs] at hv
    exact Nat.lt_of_lt_of_le (h.made o v hv) hnext
  tables := by
    intro t ht
    obtain ⟨hmem, hold, v, y, hlook, htype⟩ := h.tables t ht
    obtain ⟨y', hy', htype'⟩ := htables t ht v y hlook htype
    refine ⟨hmem, hold, v, y', Store.look_of_ptr ?_ hy', htype'⟩
    rw [Store.ptr, hobjs]
    exact (Store.ptr_of_look hlook).1

/-- Objects are written. -/
theorem Fenced.of_objs (h : Fenced F s) (hvals : s'.vals = s.vals) (hnext : s.objs.next ≤ s'.objs.next)
    (hsame : ∀ o, o < F.base.objs.next → o ∉ F.entries → s'.objs.get o = s.objs.get o)
    (hentries : ∀ o ∈ F.entries, ∀ x, s.objs.get o = some x →
      ∃ p n, s'.objs.get o = some { x with prev := p, next := n })
    (hlinked : ∀ z : Zone, ∀ o x, z.Has F o → s'.objs.get o = some x →
      (∀ p ∈ x.next, z.At F s' p) ∧ ∀ p ∈ x.prev, z.At F s' p)
    (hptr : ∀ o v, Zone.mine.Has F o → s'.ptr o = some v → s.ptr o = some v ∨
      (F.base.vals.next ≤ v ∧ v < s.vals.next ∧ (∀ p, s.ptr p ≠ some v) ∧ ∀ p, s'.ptr p = some v → p = o)) :
    Fenced F s' := by
  -- an object has its old pointer, or a new one that no other object has
  have hpointer : ∀ o v, s'.ptr o = some v → s.ptr o = some v ∨ (Zone.mine.Has F o ∧
      (F.base.vals.next ≤ v ∧ v < s.vals.next ∧ (∀ p, s.ptr p ≠ some v) ∧ ∀ p, s'.ptr p = some v → p = o)) := by
    intro o v hv
    by_cases hent : o ∈ F.entries
    · left
      cases hx : s.objs.get o with
      | none =>
          have hlt := h.entry_lt hent
          by_cases hold : o ∈ F.olds
          · obtain ⟨x, hx', -⟩ := h.ready.linked o hold
            obtain ⟨p, n, hs⟩ := (h.olds o hold).2 x hx'
            rw [hx] at hs
            cases hs
          · obtain ⟨-, x, hx', -⟩ := h.new o hent hold
            rw [hx] at hx'
            cases hx'
      | some x =>
          obtain ⟨p, n, hx'⟩ := hentries o hent x hx
          rw [Store.ptr, hx'] at hv
          rw [Store.ptr, hx]
          exact hv
    · by_cases hlt : o < F.base.objs.next
      · left
        rw [Store.ptr, hsame o hlt hent] at hv
        exact hv
      · have hmine : Zone.mine.Has F o := ⟨Nat.le_of_not_lt hlt, hent⟩
        exact (hptr o v hmine hv).imp_right fun hv' => ⟨hmine, hv'⟩
  refine ⟨h.ready, Nat.le_trans h.objsNext hnext, by rw [hvals]; exact h.valsNext, ?_, ?_, by rw [hvals]; exact h.vals,
    by rw [hvals]; exact h.null, by rw [hvals]; exact h.globals, h.names, ?_, hlinked, ?_,
    by rw [hvals]; exact h.ztable, ?_, ?_, ?_, ?_⟩
  · intro o x hx hold
    have hlt := Cells.lt_next hx
    rw [hsame o hlt]
    · exact h.objs o x hx hold
    · intro hent
      exact absurd (h.new o hent hold).1 (Nat.not_le_of_lt hlt)
  · intro o ho
    obtain ⟨hent, hkeep⟩ := h.olds o ho
    refine ⟨hent, fun x hx => ?_⟩
    obtain ⟨p, n, hs⟩ := hkeep x hx
    obtain ⟨p', n', hs'⟩ := hentries o hent _ hs
    exact ⟨p', n', hs'⟩
  · intro o ho hold
    obtain ⟨hle, x, hx, hname⟩ := h.new o ho hold
    obtain ⟨p, n, hx'⟩ := hentries o ho x hx
    exact ⟨hle, _, hx', hname⟩
  · intro z v y hz hy
    rw [hvals] at hy
    exact (h.links z v y hz hy).mono fun o ho => ho.mono hnext
  · intro o v ho hv
    rcases hpointer o v hv with hv | ⟨-, hv, -⟩
    · exact h.values o v ho hv
    · exact hv
  · intro o p v hle ho hp
    rcases hpointer o v ho with ho' | ⟨-, -, -, -, honly⟩
    · rcases hpointer p v hp with hp' | ⟨-, -, -, hnone, -⟩
      · exact h.single o p v hle ho' hp'
      · exact absurd ho' (hnone o)
    · exact (honly p hp).symm
  · intro o v hv
    rw [hvals]
    rcases hpointer o v hv with hv | ⟨-, -, hlt, -⟩
    · exact h.made o v hv
    · exact hlt
  · intro t ht
    obtain ⟨hmem, hold, v, y, hlook, htype⟩ := h.tables t ht
    obtain ⟨hptr, hy⟩ := Store.ptr_of_look hlook
    obtain ⟨x, hx, hv⟩ := Option.bind_eq_some_iff.mp hptr
    obtain ⟨p, n, hx'⟩ := hentries t hmem x hx
    refine ⟨hmem, hold, v, y, Store.look_eq hx' hv ?_, htype⟩
    rw [hvals]
    exact hy

end Fenced

/-! ### Writes -/

section Writes

variable {F : Fence} {s s' : Store} {o t : ObjId} {v : ValId} {x : Obj} {y : Val} {z : Zone}

/-- A value that is new is written. -/
theorem Fenced.write (h : Fenced F s) {f : Val → Val} (hobjs : s'.objs = s.objs)
    (hvals : s'.vals = s.vals.modify v f) (hv : F.base.vals.next ≤ v) (hy : s.vals.get v = some y)
    (hz : (f y).ztable = none) (hlinks : (f y).d.Links (Zone.mine.At F s))
    (htype : (f y).type = y.type ∨ ∃ o, s.ptr o = some v ∧ o ∉ F.tables) : Fenced F s' := by
  have hself : s'.vals.get v = some (f y) := by
    rw [hvals, Cells.get_modify_self, hy, Option.map_some]
  have hother : ∀ w, w ≠ v → s'.vals.get w = s.vals.get w := by
    intro w hw
    rw [hvals, Cells.get_modify_of_ne _ hw]
  apply h.of_vals hobjs
  · rw [hvals]
    exact Nat.le_refl _
  · intro w hw _
    exact hother w (fun heq => absurd (heq ▸ hw) (Nat.not_lt_of_le hv))
  · intro w y' hw hy'
    left
    rw [hother w]
    · exact hy'
    · rintro rfl
      exact absurd (h.ready.made _ _ hw) (Nat.not_lt_of_le hv)
  · intro w y' hw hy'
    by_cases heq : w = v
    · subst heq
      rw [hself] at hy'
      obtain rfl := Option.some.inj hy'
      exact ⟨hz, hlinks⟩
    · rw [hother w heq] at hy'
      exact ⟨h.ztable w y' hw hy', h.links .mine w y' hw hy'⟩
  · intro t ht w y' hlook hty
    by_cases heq : w = v
    · subst heq
      obtain ⟨hptr, hy'⟩ := Store.ptr_of_look hlook
      rw [hy] at hy'
      obtain rfl := Option.some.inj hy'
      refine ⟨_, hself, ?_⟩
      rcases htype with htype | ⟨o, ho, hnot⟩
      · rw [htype, hty]
      · exact absurd (h.single t o w hv hptr ho ▸ ht) hnot
    · exact ⟨y', by rw [hother w heq]; exact (Store.ptr_of_look hlook).2, hty⟩

/-- The links in the value of the globals are written. -/
theorem Fenced.write_globals (h : Fenced F s) {f : Val → Val} {p i l : Option ObjId} (hobjs : s'.objs = s.objs)
    (hvals : s'.vals = s.vals.modify v f) (hv : Zone.globals.HasVal F v) (hy : s.vals.get v = some y)
    (hf : f y = { y with d := .table p i l }) (hlinks : (Data.table p i l).Links (Zone.globals.At F s))
    (hp : p.isSome) : Fenced F s' := by
  have hlt : v < F.base.vals.next := h.ready.made _ _ hv
  have hother : ∀ w, w ≠ v → s'.vals.get w = s.vals.get w := by
    intro w hw
    rw [hvals, Cells.get_modify_of_ne _ hw]
  apply h.of_vals hobjs
  · rw [hvals]
    exact Nat.le_refl _
  · intro w _ hw
    apply hother
    rintro rfl
    exact hw hv
  · intro w y' hw hy'
    obtain rfl : w = v := by
      have hv : F.base.ptr globalObj = some v := hv
      rw [hv] at hw
      exact (Option.some.inj hw).symm
    right
    rw [hy] at hy'
    obtain rfl := Option.some.inj hy'
    obtain ⟨q, rfl⟩ := Option.isSome_iff_exists.mp hp
    refine ⟨q, i, l, ?_, hlinks⟩
    rw [hvals, Cells.get_modify_self, hy, Option.map_some, hf]
  · intro w y' hw hy'
    rw [hother w] at hy'
    · exact ⟨h.ztable w y' hw hy', h.links .mine w y' hw hy'⟩
    · rintro rfl
      exact absurd hlt (Nat.not_lt_of_le hw)
  · intro t ht w y' hlook hty
    obtain ⟨hptr, hy'⟩ := Store.ptr_of_look hlook
    refine ⟨y', ?_, hty⟩
    rw [hother w]
    · exact hy'
    · rintro rfl
      obtain ⟨hent, hold, -⟩ := h.tables t ht
      exact absurd hlt (Nat.not_lt_of_le (h.values t _ (h.new t hent hold).1 hptr))

section Reads

variable {α : Type} {B : α → Store → Prop} {E : Fault → Store → Prop}

/-- An action behind an object that is read. -/
theorem getObj_bind_ends {f : Obj → H α} (hE : ∀ e, E e s)
    (hf : ∀ x, s.objs.get o = some x → Ends B E ((f x).run s)) : Ends B E ((getObj o >>= f).run s) := by
  apply Ends.require hE
  intro x hx
  cases hobj : s.objs.get o with
  | none =>
      rw [hobj] at hx
      cases hx
  | some x' =>
      rw [hobj] at hx
      cases hx
      exact hf x hobj

/-- An action behind a value that is read. -/
theorem getVal_bind_ends {f : Val → H α} (hE : ∀ e, E e s)
    (hf : ∀ v y, s.look o = .ok (v, y) → Ends B E ((f y).run s)) : Ends B E ((getVal o >>= f).run s) := by
  apply Ends.require hE
  intro y hy
  cases hlook : s.look o with
  | error e =>
      rw [hlook] at hy
      cases hy
  | ok r =>
      rw [hlook] at hy
      cases hy
      exact hf r.1 r.2 hlook

/-- An action behind a type that is read. -/
theorem typeOf_bind_ends {f : Ty → H α} (hE : ∀ e, E e s)
    (hf : ∀ ty, (∃ v y, s.look o = .ok (v, y) ∧ y.type = ty) ∨ (ty = .null ∧ s.ptr o = none) →
      Ends B E ((f ty).run s)) : Ends B E ((typeOf o >>= f).run s) := by
  apply Ends.require hE
  intro ty hty
  apply hf
  cases hx : s.objs.get o with
  | none =>
      rw [hx] at hty
      cases hty
  | some x =>
      rw [hx] at hty
      dsimp only at hty
      cases hv : x.val with
      | none =>
          rw [hv] at hty
          cases hty
          refine .inr ⟨rfl, ?_⟩
          rw [Store.ptr, hx]
          exact hv
      | some v =>
          rw [hv] at hty
          dsimp only at hty
          cases hy : s.vals.get v with
          | none =>
              rw [hy] at hty
              cases hty
          | some y =>
              rw [hy] at hty
              cases hty
              exact .inl ⟨v, y, Store.look_eq hx hv hy, rfl⟩

/-- An action behind a member of the union. -/
theorem member_bind_ends {β : Type} {x : Except Fault β} {f : β → H α} (hE : ∀ e, E e s)
    (hf : ∀ a, x = .ok a → Ends B E ((f a).run s)) : Ends B E ((member x >>= f).run s) :=
  Ends.require hE hf

end Reads

theorem modVal_ends (s : Store) (o : ObjId) (f : Val → Val) :
    Ends (fun _ s' => ∃ v y, s.look o = .ok (v, y) ∧ s'.objs = s.objs ∧ s'.vals = s.vals.modify v f)
      (fun _ s' => s' = s) ((modVal o f).run s) := by
  simp only [modVal]
  cases hlook : s.look o with
  | error e => rfl
  | ok r => exact ⟨r.1, r.2, rfl, rfl, rfl⟩

theorem modObj_ends (s : Store) (o : ObjId) (f : Obj → Obj) (hf) :
    Ends (fun _ s' => ∃ x, s.objs.get o = some x ∧ s'.objs = s.objs.modify o f ∧ s'.vals = s.vals)
      (fun _ s' => s' = s) ((modObj o f hf).run s) := by
  simp only [modObj]
  cases hx : s.objs.get o with
  | none => rfl
  | some x => exact ⟨x, rfl, rfl, rfl⟩

/-- The links of an object of a zone are written. -/
theorem Fenced.relink (h : Fenced F s) {f : Obj → Obj} (hvals : s'.vals = s.vals)
    (hobjs : s'.objs = s.objs.modify o f) (ho : z.Has F o) (hx : s.objs.get o = some x)
    (hf : ∃ p n, f x = { x with prev := p, next := n } ∧ (∀ q ∈ p, z.At F s q) ∧ ∀ q ∈ n, z.At F s q) : Fenced F s' := by
  obtain ⟨p, n, hfx, hp, hn⟩ := hf
  have hself : s'.objs.get o = some { x with prev := p, next := n } := by
    rw [hobjs, Cells.get_modify_self, hx, Option.map_some, hfx]
  have hother : ∀ o', o' ≠ o → s'.objs.get o' = s.objs.get o' := by
    intro o' hne
    rw [hobjs, Cells.get_modify_of_ne _ hne]
  have hle : s.objs.next ≤ s'.objs.next := by
    rw [hobjs]
    exact Nat.le_refl _
  -- the zones are apart
  have hzone : ∀ z' : Zone, z'.Has F o → z' = z := by
    intro z' hz'
    cases z <;> cases z'
    · rfl
    · exact absurd ho hz'.2
    · exact absurd hz' ho.2
    · rfl
  apply h.of_objs hvals hle
  · intro o' hlt hent
    apply hother
    rintro rfl
    cases z with
    | globals => exact hent ho
    | mine => exact absurd ho.1 (Nat.not_le_of_lt hlt)
  · intro o' _ x' hx'
    by_cases heq : o' = o
    · subst heq
      rw [hx] at hx'
      obtain rfl := Option.some.inj hx'
      exact ⟨p, n, hself⟩
    · exact ⟨x'.prev, x'.next, by rw [hother o' heq, hx']⟩
  · intro z' o' x' hz' hx'
    by_cases heq : o' = o
    · subst heq
      obtain rfl := hzone z' hz'
      rw [hself] at hx'
      obtain rfl := Option.some.inj hx'
      exact ⟨fun q hq => (hn q hq).mono hle, fun q hq => (hp q hq).mono hle⟩
    · rw [hother o' heq] at hx'
      obtain ⟨hnext, hprev⟩ := h.linked z' o' x' hz' hx'
      exact ⟨fun q hq => (hnext q hq).mono hle, fun q hq => (hprev q hq).mono hle⟩
  · intro o' w _ hw
    left
    by_cases heq : o' = o
    · subst heq
      rw [Store.ptr, hself] at hw
      rw [Store.ptr, hx]
      exact hw
    · rwa [Store.ptr, hother o' heq] at hw

theorem setNext_ends (h : Fenced F s) (ho : z.Has F o) {p : ObjId} (hp : z.At F s p) :
    Ends (fun _ s' => Fenced F s' ∧ s'.objs.next = s.objs.next) (fun _ s' => Fenced F s') ((setNext o p).run s) := by
  apply (modObj_ends s o _ _).mono
  · rintro - s' ⟨x, hx, hobjs, hvals⟩
    refine ⟨h.relink hvals hobjs ho hx ⟨x.prev, some p, rfl, (h.linked z o x ho hx).2, ?_⟩, by rw [hobjs]; rfl⟩
    intro q hq
    obtain rfl := Option.some.inj hq
    exact hp
  · rintro - s' rfl
    exact h

theorem setPrev_ends (h : Fenced F s) (ho : z.Has F o) {p : ObjId} (hp : z.At F s p) :
    Ends (fun _ s' => Fenced F s' ∧ s'.objs.next = s.objs.next) (fun _ s' => Fenced F s') ((setPrev o p).run s) := by
  apply (modObj_ends s o _ _).mono
  · rintro - s' ⟨x, hx, hobjs, hvals⟩
    refine ⟨h.relink hvals hobjs ho hx ⟨some p, x.next, rfl, ?_, (h.linked z o x ho hx).1⟩, by rw [hobjs]; rfl⟩
    intro q hq
    obtain rfl := Option.some.inj hq
    exact hp
  · rintro - s' rfl
    exact h

/-- The order of a table stays what it was, and so do all objects. -/
def Moved (t : ObjId) (s s' : Store) : Prop :=
  s'.objs = s.objs ∧ ∀ v y, s.look t = .ok (v, y) → ∃ y', s'.look t = .ok (v, y') ∧ y'.autosort = y.autosort

theorem Moved.refl (t : ObjId) (s : Store) : Moved t s s := ⟨rfl, fun _ y hlook => ⟨y, hlook, rfl⟩⟩

theorem Moved.trans {s₁ s₂ s₃ : Store} (h : Moved t s₁ s₂) (h' : Moved t s₂ s₃) : Moved t s₁ s₃ := by
  refine ⟨h'.1.trans h.1, fun v y hlook => ?_⟩
  obtain ⟨y', hlook', hsort⟩ := h.2 v y hlook
  obtain ⟨y'', hlook'', hsort'⟩ := h'.2 v y' hlook'
  exact ⟨y'', hlook'', hsort'.trans hsort⟩

/-- The table of a value, with addresses of the zone. -/
theorem Fenced.asTable (h : Fenced F s) (ht : z.IsTable F t) (hlook : s.look t = .ok (v, y))
    {f i l : Option ObjId} (hd : y.d.asTable = .ok (f, i, l)) :
    (Data.table f i l).Links (z.At F s) ∧ (z = .globals → f.isSome) := by
  obtain ⟨hptr, hy⟩ := Store.ptr_of_look hlook
  have hval := h.hasVal ht hptr
  have hlinks := h.links z v y hval hy
  constructor
  · cases hdata : y.d with
    | table f' i' l' =>
        rw [hdata] at hd hlinks
        cases hd
        exact hlinks
    | num q =>
        rw [hdata, Data.asTable] at hd
        split at hd
        · cases hd
          simp [Data.Links]
        · cases hd
    | str b =>
        rw [hdata] at hd
        cases hd
    | cfunc g =>
        rw [hdata] at hd
        cases hd
  · rintro rfl
    obtain ⟨v', y', f', i', l', hlook', -⟩ := h.ready.globals
    obtain ⟨f'', i'', l'', hs⟩ := h.globals v' y' hlook'
    have hv : v = v' := by
      have hval : F.base.ptr globalObj = some v := hval
      rw [(Store.ptr_of_look hlook').1] at hval
      exact (Option.some.inj hval).symm
    subst hv
    rw [hs] at hy
    obtain rfl := Option.some.inj hy
    cases hd
    rfl

/-- The links of a table of a zone are written. -/
theorem modTable_ends (h : Fenced F s) (ht : z.IsTable F t) {g}
    (hg : ∀ f i l, (Data.table f i l).Links (z.At F s) → (z = .globals → f.isSome) →
      (Data.table (g (f, i, l)).1 (g (f, i, l)).2.1 (g (f, i, l)).2.2).Links (z.At F s) ∧
        (z = .globals → (g (f, i, l)).1.isSome)) :
    Ends (fun _ s' => Fenced F s' ∧ Moved t s s') (fun _ s' => Fenced F s') ((modTable t g).run s) := by
  rw [modTable]
  apply getVal_bind_ends fun _ => h
  intro v y hlook
  apply member_bind_ends fun _ => h
  rintro ⟨f, i, l⟩ hd
  obtain ⟨hlinks, hsome⟩ := h.asTable ht hlook hd
  obtain ⟨hlinks', hsome'⟩ := hg f i l hlinks hsome
  obtain ⟨hptr, hget⟩ := Store.ptr_of_look hlook
  apply (modVal_ends s t _).mono
  · rintro - s' ⟨w, y', hlook', hobjs, hvals⟩
    rw [hlook] at hlook'
    cases hlook'
    have hself : s'.vals.get v = some { y with d := .table (g (f, i, l)).1 (g (f, i, l)).2.1 (g (f, i, l)).2.2 } := by
      rw [hvals, Cells.get_modify_self, hget, Option.map_some]
    refine ⟨?_, hobjs, ?_⟩
    · cases z with
      | mine =>
          have hval := h.hasVal ht hptr
          exact h.write hobjs hvals hval hget (h.ztable v y hval hget) hlinks' (.inl rfl)
      | globals => exact h.write_globals hobjs hvals (h.hasVal ht hptr) hget rfl hlinks' (hsome' rfl)
    · intro w z hlook'
      rw [hlook] at hlook'
      cases hlook'
      refine ⟨_, Store.look_of_ptr ?_ hself, rfl⟩
      rw [Store.ptr, hobjs]
      exact hptr
  · rintro - s' rfl
    exact h

/-! ### The null value -/

theorem Fenced.look_null (h : Fenced F s) : s.look nullObj = .ok (nullVal, F.nul) := by
  apply Store.look_of_ptr _ h.null
  obtain ⟨x, hx, hv⟩ := Option.bind_eq_some_iff.mp h.ready.null.1
  rw [Store.ptr, h.objs _ _ hx h.ready.notEntry.2]
  exact hv

theorem Fenced.null_lt (h : Fenced F s) : nullVal < F.base.vals.next := Cells.lt_next h.ready.null.2

/-- The null value is written. -/
theorem Fenced.writeNull (h : Fenced F s) {f : Val → Val} (hobjs : s'.objs = s.objs)
    (hvals : s'.vals = s.vals.modify nullVal f) : Fenced { F with nul := f F.nul } s' := by
  have hother : ∀ w, w ≠ nullVal → s'.vals.get w = s.vals.get w := by
    intro w hw
    rw [hvals, Cells.get_modify_of_ne _ hw]
  have hat : ∀ z : Zone, z.At { F with nul := f F.nul } s' = z.At F s := by
    intro z
    funext o
    rw [Zone.At, Zone.At, hobjs]
    cases z <;> rfl
  have hval : ∀ (z : Zone) (v : ValId), z.HasVal F v → v ≠ nullVal := by
    rintro z v hz rfl
    cases z with
    | mine => exact absurd h.null_lt (Nat.not_lt_of_le hz)
    | globals =>
        obtain ⟨v, y, f, i, l, hlook, -, -, -, hne⟩ := h.ready.globals
        have hz : F.base.ptr globalObj = some nullVal := hz
        rw [(Store.ptr_of_look hlook).1] at hz
        exact hne (Option.some.inj hz)
  have hptr : ∀ o, s'.ptr o = s.ptr o := by
    intro o
    rw [Store.ptr, Store.ptr, hobjs]
  refine ⟨h.ready, ?_, ?_, ?_, ?_, ?_, ?_, ?_, h.names, ?_, ?_, ?_, ?_, ?_, ?_, ?_, ?_⟩
  · rw [hobjs]
    exact h.objsNext
  · rw [hvals]
    exact h.valsNext
  · rw [hobjs]
    exact h.objs
  · rw [hobjs]
    exact h.olds
  · intro v y hy hne hg
    rw [hother v hne]
    exact h.vals v y hy hne hg
  · rw [hvals, Cells.get_modify_self, h.null, Option.map_some]
  · intro v y hlook
    rw [hother v (hval .globals v (Store.ptr_of_look hlook).1)]
    exact h.globals v y hlook
  · rw [hobjs]
    exact h.new
  · intro z o x ho hx
    rw [hat]
    rw [hobjs] at hx
    exact h.linked z o x (by cases z <;> exact ho) hx
  · intro z v y hz hy
    have hz : z.HasVal F v := by cases z <;> exact hz
    rw [hat]
    rw [hother v (hval z v hz)] at hy
    exact h.links z v y hz hy
  · intro v y hv hy
    rw [hother v (hval .mine v hv)] at hy
    exact h.ztable v y hv hy
  · intro o v ho hv
    rw [hptr] at hv
    exact h.values o v ho hv
  · intro o p v hv ho hp
    rw [hptr] at ho hp
    exact h.single o p v hv ho hp
  · intro o v hv
    rw [hptr] at hv
    rw [hvals]
    exact h.made o v hv
  · intro t ht
    obtain ⟨hmem, hold, v, y, hlook, htype⟩ := h.tables t ht
    obtain ⟨hp, hy⟩ := Store.ptr_of_look hlook
    refine ⟨hmem, hold, v, y, Store.look_of_ptr (by rw [hptr, hp]) ?_, htype⟩
    rw [hother v (hval .mine v (h.values t v (h.new t hmem hold).1 hp)), hy]

theorem modVal_nullObj (h : Fenced F s) (f : Val → Val) :
    ∃ s', (modVal nullObj f).run s = .ok () s' ∧ Fenced { F with nul := f F.nul } s' :=
  ⟨_, modVal_run h.look_null, h.writeNull rfl rfl⟩

end Writes

end NullG.Nsp
