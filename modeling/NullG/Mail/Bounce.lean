/-
What a delivery adds to the disk.

Names of files are free when they are chosen, so a delivery only adds files. `planBounce` asks what
`bounce_send` asks and writes nothing: it says which files are going to be written, and `bounce_send`
adds exactly these.
-/

import Mathlib.Data.List.Nodup
import NullG.Lib.Runs
import NullG.Mail.Spool

namespace NullG.Mail

open NullG.Nsp NullG.Lib

/-! ### New files -/

/-- A file and what it holds. -/
abbrev File := List Byte × List Byte

/-- Exactly these files are new. -/
structure Adds (d : Disk) (files : List File) (d' : Disk) : Prop where
  nodup : (files.map Prod.fst).Nodup
  free : ∀ f ∈ files, d f.1 = none
  there : ∀ f ∈ files, d' f.1 = some f.2
  others : ∀ p, p ∉ files.map Prod.fst → d' p = d p

/-- The files are added to the disk. -/
def Disk.add (d : Disk) (files : List File) : Disk := fun p => ((files.find? (·.1 == p)).map Prod.snd).or (d p)

section

variable {d d' d'' : Disk} {l l' : List File} {p c : List Byte}

theorem Adds.nil (d : Disk) : Adds d [] d where
  nodup := List.nodup_nil
  free _ h := absurd h List.not_mem_nil
  there _ h := absurd h List.not_mem_nil
  others _ _ := rfl

theorem Disk.write_self (d : Disk) (p c : List Byte) : d.write p c p = some c := if_pos rfl

theorem Disk.write_of_ne (d : Disk) (c : List Byte) {p q : List Byte} (h : q ≠ p) : d.write p c q = d q := if_neg h

/-- A file that is unlinked again leaves nothing. -/
theorem Disk.unlink_write (h : d p = none) (c : List Byte) : (d.write p c).unlink p = d := by
  funext q
  unfold Disk.unlink
  by_cases hq : q = p
  · rw [if_pos hq, hq, h]
  · rw [if_neg hq, Disk.write_of_ne d c hq]

/-- What is written last is what stays. -/
theorem Disk.write_write (d : Disk) (p c c' : List Byte) : (d.write p c).write p c' = d.write p c' := by
  funext q
  by_cases hq : q = p
  · rw [hq, Disk.write_self, Disk.write_self]
  · rw [Disk.write_of_ne _ c' hq, Disk.write_of_ne _ c' hq, Disk.write_of_ne d c hq]

theorem adds_write (h : d p = none) (c : List Byte) : Adds d [(p, c)] (d.write p c) where
  nodup := List.nodup_singleton p
  free f hf := by
    obtain rfl := List.mem_singleton.mp hf
    exact h
  there f hf := by
    obtain rfl := List.mem_singleton.mp hf
    exact Disk.write_self d p c
  others q hq := Disk.write_of_ne d c fun h => hq (List.mem_singleton.mpr h)

theorem Adds.append (h : Adds d l d') (h' : Adds d' l' d'') : Adds d (l ++ l') d'' := by
  -- the files of the first list are taken when those of the second are chosen
  have hdisjoint : ∀ p ∈ l.map Prod.fst, p ∉ l'.map Prod.fst := by
    intro p hp hp'
    obtain ⟨f, hf, rfl⟩ := List.mem_map.mp hp
    obtain ⟨g, hg, heq⟩ := List.mem_map.mp hp'
    have hfree := h'.free g hg
    rw [heq, h.there f hf] at hfree
    cases hfree
  refine ⟨?_, fun f hf => ?_, fun f hf => ?_, fun p hp => ?_⟩
  · rw [List.map_append, List.nodup_append]
    refine ⟨h.nodup, h'.nodup, fun p hp q hq heq => ?_⟩
    rw [heq] at hp
    exact hdisjoint q hp hq
  · rcases List.mem_append.mp hf with hf | hf
    · exact h.free f hf
    · have hnot : f.1 ∉ l.map Prod.fst := fun hmem => hdisjoint _ hmem (List.mem_map_of_mem hf)
      rw [← h.others _ hnot]
      exact h'.free f hf
  · rcases List.mem_append.mp hf with hf | hf
    · rw [h'.others _ (hdisjoint _ (List.mem_map_of_mem hf))]
      exact h.there f hf
    · exact h'.there f hf
  · rw [List.map_append, List.mem_append, not_or] at hp
    rw [h'.others p hp.2, h.others p hp.1]

/-- The new files are known from the disks. -/
theorem Adds.mem_iff (h : Adds d l d') (f : File) : f ∈ l ↔ d f.1 = none ∧ d' f.1 = some f.2 := by
  constructor
  · intro hf
    exact ⟨h.free f hf, h.there f hf⟩
  · rintro ⟨hfree, hthere⟩
    by_cases hmem : f.1 ∈ l.map Prod.fst
    · obtain ⟨g, hg, heq⟩ := List.mem_map.mp hmem
      have hsame := h.there g hg
      rw [heq, hthere] at hsame
      have hfg : f = g := Prod.ext heq.symm (Option.some.inj hsame)
      rw [hfg]
      exact hg
    · rw [h.others _ hmem, hfree] at hthere
      cases hthere

/-- With the new files the disk is known. -/
theorem Adds.eq_add (h : Adds d l d') : d' = d.add l := by
  funext p
  unfold Disk.add
  cases hfind : l.find? (·.1 == p) with
  | some f =>
      have hp : (f.1 == p) = true := List.find?_some (p := fun g : File => g.1 == p) hfind
      rw [← beq_iff_eq.mp hp]
      exact h.there f (List.mem_of_find?_eq_some hfind)
  | none =>
      refine h.others p fun hmem => ?_
      obtain ⟨f, hf, hp⟩ := List.mem_map.mp hmem
      exact List.find?_eq_none.mp hfind f hf (beq_iff_eq.mpr hp)

theorem Adds.perm (h : Adds d l d') (h' : Adds d l' d') : l.Perm l' := by
  rw [List.perm_ext_iff_of_nodup (List.Nodup.of_map _ h.nodup) (List.Nodup.of_map _ h'.nodup)]
  intro f
  rw [h.mem_iff, h'.mem_iff]

end

/-! ### Names -/

section

variable {sys : System} {w w' : World}

/-- A time that is found has names that are not taken. -/
theorem freeTime_run {names : Nat × Nat → List (List Byte)} {patience : Nat} {t : Nat × Nat}
    (h : freeTime sys names patience w = .ok t w') : w'.disk = w.disk ∧ ∀ p ∈ names t, w.disk p = none := by
  induction patience generalizing w with
  | zero => cases h
  | succ patience ih =>
      obtain ⟨n, w₁, htick, h⟩ := bind_run_ok h
      cases htick
      obtain ⟨w₂, w₃, hget, h⟩ := bind_run_ok h
      cases hget
      by_cases htaken : (names (sys.clock w.tick)).any w.disk.stat = true
      · rw [if_pos htaken] at h
        have hrest := ih (w := { w with tick := w.tick + 1 }) h
        exact hrest
      · rw [if_neg htaken] at h
        cases h
        refine ⟨rfl, fun p hp => ?_⟩
        have hfree : ¬ w.disk.stat p = true := fun hs => htaken (List.any_eq_true.mpr ⟨p, hp, hs⟩)
        unfold Disk.stat at hfree
        simpa using hfree

theorem freeMailspool_free {domainid : Int} {mailbox path : List Byte}
    (h : freeMailspool sys domainid mailbox w = .ok path w') :
    w'.disk = w.disk ∧ w.disk path = none ∧ ∃ t, path = mailspoolFile sys.var domainid mailbox t := by
  obtain ⟨t, w₁, htime, h⟩ := bind_run_ok h
  cases h
  obtain ⟨hdisk, hfree⟩ := freeTime_run htime
  exact ⟨hdisk, hfree _ List.mem_cons_self, t, rfl⟩

theorem freeMqueue_free {paths : List Byte × List Byte} (h : freeMqueue sys w = .ok paths w') :
    w'.disk = w.disk ∧ w.disk paths.1 = none ∧ w.disk paths.2 = none ∧
      ∃ t, paths = (mqueueFile sys.var t, mqinfoFile sys.var t) := by
  obtain ⟨t, w₁, htime, h⟩ := bind_run_ok h
  cases h
  obtain ⟨hdisk, hfree⟩ := freeTime_run htime
  exact ⟨hdisk, hfree _ List.mem_cons_self, hfree _ (List.mem_cons_of_mem _ List.mem_cons_self), t, rfl⟩

/-- The names of a message and of its queue entry are not cut where they differ. -/
theorem mqueueFile_ne {var : List Byte} (h : var.length ≤ 244) (t : Nat × Nat) : mqueueFile var t ≠ mqinfoFile var t := by
  intro heq
  have hq : ∀ rest : List Byte, (fixslashes (snprintf 255 (var ++ (bytes "/spool/mq" ++ rest))))[var.length + 9]? =
      (fixslashes rest)[0]? := by
    intro rest
    unfold fixslashes snprintf
    rw [List.getElem?_map, List.getElem?_take_of_lt (by omega), List.getElem?_append_right (by omega), List.getElem?_map,
      Nat.add_sub_cancel_left, List.getElem?_append_right (by decide)]
    rfl
  have hmsg : mqueueFile var t =
      fixslashes (snprintf 255 (var ++ (bytes "/spool/mq" ++ (ch 'u' :: bytes "eue/" ++ stampText t ++ bytes ".msg")))) := by
    unfold mqueueFile
    simp only [List.append_assoc]
    rfl
  have hinfo : mqinfoFile var t =
      fixslashes (snprintf 255 (var ++ (bytes "/spool/mq" ++ (ch 'i' :: bytes "nfo/" ++ stampText t ++ bytes ".dat")))) := by
    unfold mqinfoFile
    simp only [List.append_assoc]
    rfl
  rw [hmsg, hinfo] at heq
  have hchar := congrArg (fun l => l[var.length + 9]?) heq
  simp only [hq] at hchar
  cases hchar

end

/-! ### The files of a bounce -/

/-- The world behind a call to the surroundings. -/
def World.ticked (w : World) : World := { w with tick := w.tick + 1 }

theorem tick_eq (w : World) : tick w = .ok w.tick w.ticked := rfl

theorem fopenWrite_eq (sys : System) (path content : List Byte) (w : World) :
    fopenWrite sys path content w =
      if sys.opens w.tick then .ok true { w.ticked with disk := w.disk.write path content } else .ok false w.ticked := by
  unfold fopenWrite
  rw [run_bind_of_ok (tick_eq w)]
  cases sys.opens w.tick <;> rfl

/-- The files of a bounce, from the point where their names are found. -/
def planBounceAt (sys : System) (path : List Byte) (info : Option (List Byte)) (sender rcpt : List Byte)
    (origMsg : Option (List Byte)) (reason : List Byte) : W (List File) := do
  let n ← tick
  let w ← get
  let text := bounceText sys.hostName (sys.date n) sender rcpt reason (origMsg.bind w.disk)
  if !sys.opens (← tick) then return []
  match info with
  | none => return [(path, text)]
  | some info => do
      let entry := bounceInfo sender (sys.sqlDate n)
      -- names that are cut to the same text are one file
      if sys.opens (← tick) then return if info = path then [(info, entry)] else [(path, text), (info, entry)]
      return []

/-- The files that `bounce_send` is going to write. -/
def planBounce (sys : System) (sender rcpt : List Byte) (origMsg : Option (List Byte)) (reason : List Byte) :
    W (List File) := do
  if sender.isEmpty then return []
  let (name, host) := splitAddr (snprintf 127 sender)
  let localdomainid := sys.domainGetid (← tick) host
  if localdomainid > 0 then
    match sys.usersExact (← tick) name localdomainid with
    | none => return []
    | some rows =>
        let userid : Int :=
          match rows with
          | [u] => u.userid
          | _ => 0
        if userid < 1 then return []
        if !sys.spoolReady (← tick) then return []
        let path ← freeMailspool sys localdomainid name
        planBounceAt sys path none sender rcpt origMsg reason
  else
    let (path, info) ← freeMqueue sys
    planBounceAt sys path (some info) sender rcpt origMsg reason

/-- A run does what a plan says: it adds the files, and it returns 0 where there are some or where
nothing is to be sent. -/
def Carries (w : World) (sender : List Byte) :
    EStateM.Result Stop World Int → EStateM.Result Stop World (List File) → Prop
  | .ok rc u, .ok files v =>
      u.tick = v.tick ∧ v.disk = w.disk ∧ Adds w.disk files u.disk ∧ (rc = 0 ↔ sender = [] ∨ files ≠ [])
  | .error _ _, .error _ _ => True
  | _, _ => False

section

variable {sys : System} {w : World} {sender rcpt reason : List Byte} {origMsg : Option (List Byte)}

theorem opened {path text : List Byte} (h : sys.opens w.tick = true) :
    fopenWrite sys path text w = .ok true { w.ticked with disk := w.disk.write path text } := by
  rw [fopenWrite_eq, if_pos h]

theorem not_opened {path text : List Byte} (h : sys.opens w.tick = false) :
    fopenWrite sys path text w = .ok false w.ticked := by
  rw [fopenWrite_eq, if_neg (by rw [h]; exact Bool.false_ne_true)]

theorem get_eq (w : World) : (get : W World) w = .ok w w := rfl

theorem writeBounce_carries {path : List Byte} {info : Option (List Byte)} (hsender : sender ≠ [])
    (hpath : w.disk path = none) (hinfo : ∀ p, info = some p → w.disk p = none) :
    Carries w sender (writeBounce sys path info sender rcpt origMsg reason w)
      (planBounceAt sys path info sender rcpt origMsg reason w) := by
  unfold writeBounce planBounceAt
  rw [run_bind_of_ok (tick_eq w), run_bind_of_ok (tick_eq w), run_bind_of_ok (get_eq _), run_bind_of_ok (get_eq _)]
  rw [run_bind_of_ok (tick_eq w.ticked)]
  generalize bounceText sys.hostName (sys.date w.tick) sender rcpt reason (origMsg.bind w.ticked.disk) = text
  have hnone : ∀ {rc : Int}, rc ≠ 0 → (rc = 0 ↔ sender = [] ∨ ([] : List File) ≠ []) := by
    intro rc hrc
    constructor
    · intro h
      exact absurd h hrc
    · rintro (h | h)
      · exact absurd h hsender
      · exact absurd rfl h
  cases hopens : sys.opens w.ticked.tick with
  | false =>
      rw [run_bind_of_ok (not_opened hopens)]
      exact ⟨rfl, rfl, Adds.nil _, hnone (by decide)⟩
  | true =>
      rw [run_bind_of_ok (opened hopens)]
      have hadds : Adds w.disk [(path, text)] (w.disk.write path text) := adds_write hpath text
      cases info with
      | none => exact ⟨rfl, rfl, hadds, fun _ => .inr (List.cons_ne_nil _ _), fun _ => rfl⟩
      | some p =>
          let u : World := { w.ticked.ticked with disk := w.disk.write path text }
          let entry := bounceInfo sender (sys.sqlDate w.tick)
          show Carries w sender
            ((do if ← fopenWrite sys p entry then return 0 else unlink path; return -1 : W Int) u)
            ((do
              if sys.opens (← tick) then return if p = path then [(p, entry)] else [(path, text), (p, entry)]
              return [] : W (List File)) w.ticked.ticked)
          rw [run_bind_of_ok (tick_eq _)]
          cases hopens' : sys.opens w.ticked.ticked.tick with
          | false =>
              rw [run_bind_of_ok (not_opened (w := u) hopens')]
              refine ⟨rfl, rfl, ?_, hnone (by decide)⟩
              show Adds w.disk [] ((w.disk.write path text).unlink path)
              rw [Disk.unlink_write hpath]
              exact Adds.nil _
          | true =>
              rw [run_bind_of_ok (opened (w := u) hopens')]
              by_cases hsame : p = path
              · rw [if_pos rfl, if_pos hsame]
                refine ⟨rfl, rfl, ?_, fun _ => .inr (List.cons_ne_nil _ _), fun _ => rfl⟩
                show Adds w.disk [(p, entry)] ((w.disk.write path text).write p entry)
                rw [hsame, Disk.write_write]
                exact adds_write hpath entry
              · rw [if_pos rfl, if_neg hsame]
                have hfree : u.disk p = none := (Disk.write_of_ne w.disk text hsame).trans (hinfo p rfl)
                exact ⟨rfl, rfl, hadds.append (adds_write hfree entry), fun _ => .inr (List.cons_ne_nil _ _), fun _ => rfl⟩

/-- A run that asks the same first. -/
theorem Carries.of_same {α : Type} {x : W α} {f : α → W Int} {g : α → W (List File)}
    (h : ∀ a u, x w = .ok a u → u.disk = w.disk ∧ Carries u sender (f a u) (g a u)) :
    Carries w sender ((x >>= f) w) ((x >>= g) w) := by
  cases hx : x w with
  | error e u =>
      rw [run_bind_of_error hx, run_bind_of_error hx]
      trivial
  | ok a u =>
      obtain ⟨hdisk, hrest⟩ := h a u hx
      rw [run_bind_of_ok hx, run_bind_of_ok hx]
      cases hf : f a u with
      | error e v =>
          rw [hf] at hrest
          cases hg : g a u with
          | error e' v' => trivial
          | ok b v' =>
              rw [hg] at hrest
              exact hrest
      | ok rc v =>
          rw [hf] at hrest
          cases hg : g a u with
          | error e' v' =>
              rw [hg] at hrest
              exact hrest
          | ok files v' =>
              rw [hg] at hrest
              obtain ⟨htick, hsame, hadds, hrc⟩ := hrest
              rw [hdisk] at hsame hadds
              exact ⟨htick, hsame, hadds, hrc⟩

theorem carries_nothing {rc : Int} (h : rc = 0 ↔ sender = []) :
    Carries w sender ((return rc : W Int) w) ((return [] : W (List File)) w) :=
  ⟨rfl, rfl, Adds.nil _, h.trans ⟨.inl, fun h => h.resolve_right fun hne => hne rfl⟩⟩

theorem tick_same {f : Nat → W Int} {g : Nat → W (List File)}
    (h : ∀ n, ∀ u : World, Carries u.ticked sender (f n u.ticked) (g n u.ticked)) : Carries w sender ((tick >>= f) w) ((tick >>= g) w) := by
  refine .of_same fun n u hu => ?_
  cases hu
  exact ⟨rfl, h _ _⟩

/-- `bounce_send` adds the files of its plan. -/
theorem bounceSend_carries (sender rcpt : List Byte) (origMsg : Option (List Byte))
    (reason : List Byte) (w : World) :
    Carries w sender (bounceSend sys sender rcpt origMsg reason w) (planBounce sys sender rcpt origMsg reason w) := by
  unfold bounceSend planBounce
  by_cases hempty : sender.isEmpty = true
  · rw [if_pos hempty, if_pos hempty]
    exact carries_nothing ⟨fun _ => List.isEmpty_iff.mp hempty, fun _ => rfl⟩
  · rw [if_neg hempty, if_neg hempty]
    have hsender : sender ≠ [] := fun h => hempty (List.isEmpty_iff.mpr h)
    have hfail : ∀ u : World, Carries u sender ((return -1 : W Int) u) ((return [] : W (List File)) u) := fun u =>
      carries_nothing ⟨fun h => absurd h (by decide), fun h => absurd h hsender⟩
    obtain ⟨name, host⟩ := splitAddr (snprintf 127 sender)
    refine tick_same fun n u => ?_
    by_cases hlocal : sys.domainGetid n host > 0
    · rw [if_pos hlocal, if_pos hlocal]
      refine tick_same fun n' u' => ?_
      cases sys.usersExact n' name (sys.domainGetid n host) with
      | none => exact hfail _
      | some rows =>
          have hrest : ∀ userid : Int, Carries u'.ticked sender
              ((do
                if userid < 1 then return -1
                if !sys.spoolReady (← tick) then return -1
                let path ← freeMailspool sys (sys.domainGetid n host) name
                writeBounce sys path none sender rcpt origMsg reason : W Int) u'.ticked)
              ((do
                if userid < 1 then return []
                if !sys.spoolReady (← tick) then return []
                let path ← freeMailspool sys (sys.domainGetid n host) name
                planBounceAt sys path none sender rcpt origMsg reason : W (List File)) u'.ticked) := by
            intro userid
            by_cases hid : userid < 1
            · rw [if_pos hid, if_pos hid]
              exact hfail _
            · rw [if_neg hid, if_neg hid]
              refine tick_same fun n'' v => ?_
              by_cases hready : (!sys.spoolReady n'') = true
              · rw [if_pos hready, if_pos hready]
                exact hfail _
              · rw [if_neg hready, if_neg hready]
                refine .of_same fun path v' hpath => ?_
                obtain ⟨hdisk, hfree, -⟩ := freeMailspool_free hpath
                exact ⟨hdisk, writeBounce_carries hsender (by rw [hdisk]; exact hfree) fun p hp => by cases hp⟩
          exact hrest _
    · rw [if_neg hlocal, if_neg hlocal]
      refine .of_same fun paths v hpaths => ?_
      obtain ⟨hdisk, hfree, hfree', t, rfl⟩ := freeMqueue_free hpaths
      refine ⟨hdisk, writeBounce_carries hsender (by rw [hdisk]; exact hfree) fun p hp => ?_⟩
      cases hp
      rw [hdisk]
      exact hfree'

/-! ### What a bounce looks like -/

/-- The files of a bounce for a recipient. -/
def IsBounce (sys : System) (sender rcpt : List Byte) (origMsg : Option (List Byte)) (reason : List Byte)
    (files : List File) : Prop :=
  ∃ n text, (∃ original, text = bounceText sys.hostName (sys.date n) sender rcpt reason original ∧
      (origMsg = none → original = none)) ∧
    ((∃ domainid mailbox t, 0 < domainid ∧ files = [(mailspoolFile sys.var domainid mailbox t, text)]) ∨
      ∃ t, files = [(mqueueFile sys.var t, text), (mqinfoFile sys.var t, bounceInfo sender (sys.sqlDate n))])

theorem planBounceAt_files {path : List Byte} {info : Option (List Byte)} {files : List File} {u : World}
    (h : planBounceAt sys path info sender rcpt origMsg reason w = .ok files u) :
    files = [] ∨
      (∃ n original, (origMsg = none → original = none) ∧
        files = (path, bounceText sys.hostName (sys.date n) sender rcpt reason original) ::
          info.toList.map fun p => (p, bounceInfo sender (sys.sqlDate n))) ∨
      ∃ n, info = some path ∧ files = [(path, bounceInfo sender (sys.sqlDate n))] := by
  obtain ⟨n, u₁, -, h⟩ := bind_run_ok h
  obtain ⟨u₂, u₃, -, h⟩ := bind_run_ok h
  obtain ⟨n', u₄, -, h⟩ := bind_run_ok h
  have horig : origMsg = none → origMsg.bind u₂.disk = none := by
    rintro rfl
    rfl
  cases hopens : sys.opens n' with
  | false =>
      rw [hopens] at h
      cases h
      exact .inl rfl
  | true =>
      rw [hopens] at h
      cases info with
      | none =>
          cases h
          exact .inr (.inl ⟨n, _, horig, rfl⟩)
      | some p =>
          obtain ⟨n'', u₅, -, h⟩ := bind_run_ok h
          cases hopens' : sys.opens n'' with
          | false =>
              rw [hopens'] at h
              cases h
              exact .inl rfl
          | true =>
              rw [hopens', if_pos rfl] at h
              by_cases hsame : p = path
              · rw [if_pos hsame] at h
                cases h
                rw [hsame]
                exact .inr (.inr ⟨n, rfl, rfl⟩)
              · rw [if_neg hsame] at h
                cases h
                exact .inr (.inl ⟨n, _, horig, rfl⟩)

/-- What a plan may be: nothing, a bounce, or a queue entry that takes the place of the bounce. -/
def Bounced (sys : System) (sender rcpt : List Byte) (origMsg : Option (List Byte)) (reason : List Byte)
    (files : List File) : Prop :=
  files = [] ∨ IsBounce sys sender rcpt origMsg reason files ∨
    ∃ t n, 244 < sys.var.length ∧ files = [(mqueueFile sys.var t, bounceInfo sender (sys.sqlDate n))]

theorem planBounce_files {files : List File} {u : World}
    (h : planBounce sys sender rcpt origMsg reason w = .ok files u) :
    Bounced sys sender rcpt origMsg reason files := by
  unfold planBounce at h
  by_cases hempty : sender.isEmpty = true
  · rw [if_pos hempty] at h
    cases h
    exact .inl rfl
  rw [if_neg hempty] at h
  generalize splitAddr (snprintf 127 sender) = parts at h
  obtain ⟨name, host⟩ := parts
  obtain ⟨n, u₁, -, h⟩ := bind_run_ok h
  by_cases hlocal : sys.domainGetid n host > 0
  · rw [if_pos hlocal] at h
    obtain ⟨n', u₂, -, h⟩ := bind_run_ok h
    cases hrows : sys.usersExact n' name (sys.domainGetid n host) with
    | none =>
        rw [hrows] at h
        cases h
        exact .inl rfl
    | some rows =>
        rw [hrows] at h
        have hrest : ∀ userid : Int, (do
            if userid < 1 then return []
            if !sys.spoolReady (← tick) then return []
            let path ← freeMailspool sys (sys.domainGetid n host) name
            planBounceAt sys path none sender rcpt origMsg reason : W (List File)) u₂ = .ok files u →
            Bounced sys sender rcpt origMsg reason files := by
          intro userid h
          by_cases hid : userid < 1
          · rw [if_pos hid] at h
            cases h
            exact .inl rfl
          rw [if_neg hid] at h
          obtain ⟨n'', u₃, -, h⟩ := bind_run_ok h
          by_cases hready : (!sys.spoolReady n'') = true
          · rw [if_pos hready] at h
            cases h
            exact .inl rfl
          rw [if_neg hready] at h
          obtain ⟨path, u₄, hpath, h⟩ := bind_run_ok h
          obtain ⟨-, -, t, rfl⟩ := freeMailspool_free hpath
          rcases planBounceAt_files h with hnil | ⟨k, original, horig, hfiles⟩ | ⟨k, hinfo, -⟩
          · exact .inl hnil
          · exact .inr (.inl ⟨k, _, ⟨original, rfl, horig⟩, .inl ⟨_, _, t, hlocal, hfiles⟩⟩)
          · cases hinfo
        exact hrest _ h
  · rw [if_neg hlocal] at h
    obtain ⟨paths, u₂, hpaths, h⟩ := bind_run_ok h
    obtain ⟨-, -, -, t, rfl⟩ := freeMqueue_free hpaths
    rcases planBounceAt_files h with hnil | ⟨k, original, horig, hfiles⟩ | ⟨k, hinfo, hfiles⟩
    · exact .inl hnil
    · exact .inr (.inl ⟨k, _, ⟨original, rfl, horig⟩, .inr ⟨t, hfiles⟩⟩)
    · refine .inr (.inr ⟨t, k, ?_, hfiles⟩)
      by_contra hvar
      exact mqueueFile_ne (Nat.not_lt.mp hvar) t (Option.some.inj hinfo).symm

/-- The text of a bounce starts with its date, and a queue entry with a sender. -/
def holdsBounce (f : File) : Bool := f.2.head? == some (ch 'D')

theorem IsBounce.any_holdsBounce {files : List File} (h : IsBounce sys sender rcpt origMsg reason files) :
    files.any holdsBounce = true := by
  obtain ⟨n, text, ⟨original, rfl, -⟩, ⟨domainid, mailbox, t, -, rfl⟩ | ⟨t, rfl⟩⟩ := h
  · rfl
  · rfl

/-- A bounce is told from a queue entry alone by its first letter. -/
theorem bounced_cases {files : List File} (h : Bounced sys sender rcpt origMsg reason files) :
    if files.any holdsBounce then IsBounce sys sender rcpt origMsg reason files
    else files = [] ∨ ∃ path date, files = [(path, bounceInfo sender date)] := by
  rcases h with rfl | hbounce | ⟨t, n, -, rfl⟩
  · exact .inl rfl
  · rw [if_pos hbounce.any_holdsBounce]
    exact hbounce
  · exact .inr ⟨_, _, rfl⟩

end

end NullG.Mail
