/-
Deliveries in different connections (`smtp_accept`, `bounce_send`).

A delivery reads the clock, looks for its names with `stat`, opens the file and writes to it, and other
deliveries take their steps in between. `stat` and `fopen` are two steps: a name that was found free
may be opened by two deliveries, and the second one truncates the file of the first.
-/

import NullG.Lib.Files
import NullG.Lib.Interleaving
import Mathlib.Data.Fintype.Basic
import NullG.Mail.Bounce

namespace NullG.Mail

open NullG.Nsp NullG.Lib

/-- Who delivers. -/
inductive Caller where
  | smtpAccept
  | bounceSend
  deriving DecidableEq

/-- What is delivered: the names of the files for a reading of the clock, and what is written to them.
A message in the queue has a second file. -/
structure Job where
  caller : Caller
  names : Nat × Nat → List Byte × Option (List Byte)
  text : List Byte
  entry : List Byte

/-- Where a delivery is. -/
inductive Phase where
  /-- at `retry1` or `retry2` -/
  | retry
  /-- the names were made -/
  | timed (path : List Byte) (info : Option (List Byte))
  /-- `tmpname1` is free -/
  | half (path info : List Byte)
  /-- all names are free -/
  | free (path : List Byte) (info : Option (List Byte))
  /-- `tmpname1` is open, and `n` bytes were written -/
  | writing (path : List Byte) (info : Option (List Byte)) (file n : Nat)
  /-- the message is there, and the filters are next -/
  | written (path : List Byte) (info : Option (List Byte))
  /-- `tmpname2` is opened next -/
  | entry (path info : List Byte)
  | writingEntry (path info : List Byte) (file n : Nat)
  | delivered (path : List Byte) (info : Option (List Byte))
  /-- `smtp_accept` goes on, and the message is not there -/
  | lost
  /-- the caller returns an error -/
  | failed
  deriving DecidableEq

/-- A step. -/
inductive Event where
  | clock (t : Nat × Nat)
  | stat
  | fopen (opens : Bool)
  | fwrite (n : Nat)
  | fclose
  | filters (rejected : Bool)
  deriving DecidableEq

/-- What follows the message. -/
def Phase.next (path : List Byte) : Option (List Byte) → Phase
  | none => .delivered path none
  | some info => .entry path info

/-- Behind the message: only `smtp_accept` has filters. -/
def Caller.closed (path : List Byte) (info : Option (List Byte)) : Caller → Phase
  | .smtpAccept => .written path info
  | .bounceSend => .next path info

/-- The entry cannot be opened: `smtp_accept` goes on with the next recipient. -/
def Caller.noEntry : Caller → Phase
  | .smtpAccept => .lost
  | .bounceSend => .failed

/-- A step of a delivery. -/
def Job.step (job : Job) (e : Event) (f : Files (List Byte) Byte) : Phase → Option (Files (List Byte) Byte × Phase)
  | .retry =>
      match e with
      | .clock t => some (f, .timed (job.names t).1 (job.names t).2)
      | _ => none
  | .timed path info =>
      if e = .stat then
        if f.stat path then some (f, .retry)
        else some (f, match info with
          | none => .free path none
          | some info => .half path info)
      else none
  | .half path info =>
      if e = .stat then
        if f.stat info then some (f, .retry) else some (f, .free path (some info))
      else none
  | .free path info =>
      match e with
      | .fopen true => some ((f.openWrite path).2, .writing path info (f.openWrite path).1 0)
      | .fopen false => some (f, .failed)
      | _ => none
  | .writing path info file n =>
      match e with
      | .fwrite k =>
          if 0 < k ∧ n + k ≤ job.text.length then
            some (f.writeAt file n ((job.text.drop n).take k), .writing path info file (n + k))
          else none
      | .fclose =>
          if n = job.text.length then some (f, job.caller.closed path info) else none
      | _ => none
  | .written path info =>
      match e with
      | .filters true => some (f.unlink path, .failed)
      | .filters false => some (f, .next path info)
      | _ => none
  | .entry path info =>
      match e with
      | .fopen true => some ((f.openWrite info).2, .writingEntry path info (f.openWrite info).1 0)
      | .fopen false => some (f.unlink path, job.caller.noEntry)
      | _ => none
  | .writingEntry path info file n =>
      match e with
      | .fwrite k =>
          if 0 < k ∧ n + k ≤ job.entry.length then
            some (f.writeAt file n ((job.entry.drop n).take k), .writingEntry path info file (n + k))
          else none
      | .fclose => if n = job.entry.length then some (f, .delivered path (some info)) else none
      | _ => none
  | .delivered _ _ => none
  | .lost => none
  | .failed => none

section

variable {ι : Type}

/-- The files and where each delivery is. -/
abbrev Deliveries (ι : Type) := Files (List Byte) Byte × (ι → Phase)

/-- No delivery has begun. -/
structure Deliveries.Initial (s : Deliveries ι) : Prop where
  sound : s.1.Sound
  retry : ∀ i, s.2 i = .retry

/-- The names that a delivery has found free, or made its files. -/
def Phase.names : Phase → List (List Byte)
  | .half path _ => [path]
  | .free path info => path :: info.toList
  | .writing path info _ _ => path :: info.toList
  | .written path info => path :: info.toList
  | .entry path info => [path, info]
  | .writingEntry path info _ _ => [path, info]
  | .delivered path info => path :: info.toList
  | _ => []

/-- The names that a delivery has found free and not opened yet. -/
def Phase.pending : Phase → List (List Byte)
  | .half path _ => [path]
  | .free path info => path :: info.toList
  | .writing _ info _ _ => info.toList
  | .written _ info => info.toList
  | .entry _ info => [info]
  | _ => []

/-- The name that `stat` is called with next. -/
def Phase.asks : Phase → Option (List Byte)
  | .timed path _ => some path
  | .half _ info => some info
  | _ => none

/-- `tmpname2` is opened next. -/
def Phase.atEntry : Phase → Bool
  | .entry _ _ => true
  | _ => false

/-- Every message that is reported as delivered is in files of its own. -/
structure NotOverwritten (jobs : ι → Job) (s : Deliveries ι) : Prop where
  there : ∀ i, s.2 i ≠ .lost
  text : ∀ i path info, s.2 i = .delivered path info → s.1.read path = some (jobs i).text
  entry : ∀ i path info, s.2 i = .delivered path (some info) → s.1.read info = some (jobs i).entry
  own : ∀ i j path info path' info', i ≠ j → s.2 i = .delivered path info → s.2 j = .delivered path' info' → path ≠ path'

/-- The step is no `stat` of a name that a delivery is going to open, and does not lose a message. -/
def Careful (jobs : ι → Job) (s : Deliveries ι) (x : ι × Event) : Prop :=
  (x.2 = .stat → ∀ p ∈ (s.2 x.1).asks, ∀ j, p ∉ (s.2 j).pending) ∧
    (x.2 = .fopen false → (jobs x.1).caller = .smtpAccept → (s.2 x.1).atEntry = false)

instance [Fintype ι] (jobs : ι → Job) (s : Deliveries ι) (x : ι × Event) : Decidable (Careful jobs s x) :=
  inferInstanceAs (Decidable (_ ∧ _))

end

/-! ### What a delivery knows of its files -/

/-- The name of the entry is another one, and free. -/
def FreeInfo (f : Files (List Byte) Byte) (path : List Byte) (info : Option (List Byte)) : Prop :=
  ∀ q, info = some q → q ≠ path ∧ f.dir q = none

/-- What a delivery knows of the files with its names. -/
def Job.Knows (job : Job) (f : Files (List Byte) Byte) : Phase → Prop
  | .half path _ => f.dir path = none
  | .free path info => f.dir path = none ∧ FreeInfo f path info
  | .writing path info file n =>
      f.dir path = some file ∧ f.data file = job.text.take n ∧ n ≤ job.text.length ∧ FreeInfo f path info
  | .written path info => f.read path = some job.text ∧ FreeInfo f path info
  | .entry path info => f.read path = some job.text ∧ FreeInfo f path (some info)
  | .writingEntry path info file n =>
      f.read path = some job.text ∧ info ≠ path ∧ f.dir info = some file ∧ f.data file = job.entry.take n ∧
        n ≤ job.entry.length
  | .delivered path info => f.read path = some job.text ∧ ∀ q, info = some q → f.read q = some job.entry
  | .lost => False
  | .retry => True
  | .timed _ _ => True
  | .failed => True

section

variable {job : Job} {f f' : Files (List Byte) Byte} {φ φ' : Phase} {e : Event} {path q : List Byte}
  {info : Option (List Byte)} {file n : Nat}

theorem FreeInfo.frame (h : FreeInfo f path info) (hsame : ∀ q, info = some q → Files.SameAt f f' q) :
    FreeInfo f' path info :=
  fun q hq => ⟨(h q hq).1, (hsame q hq).dir.trans (h q hq).2⟩

/-- Only the files with its names matter to a delivery. -/
theorem Job.Knows.frame (h : job.Knows f φ) (hsame : ∀ p ∈ φ.names, Files.SameAt f f' p) : job.Knows f' φ := by
  have hinfo : ∀ {path q : List Byte} {info : Option (List Byte)}, info = some q → q ∈ path :: info.toList := by
    rintro path q info rfl
    exact List.mem_cons_of_mem _ List.mem_cons_self
  cases φ with
  | retry => trivial
  | timed path info => trivial
  | half path info => exact (hsame path List.mem_cons_self).dir.trans h
  | free path info =>
      obtain ⟨hdir, hfree⟩ := h
      exact ⟨(hsame path List.mem_cons_self).dir.trans hdir, hfree.frame fun q hq => hsame q (hinfo hq)⟩
  | writing path info file n =>
      obtain ⟨hdir, hdata, hlen, hfree⟩ := h
      have hpath := hsame path List.mem_cons_self
      exact ⟨hpath.dir.trans hdir, (hpath.data file hdir).trans hdata, hlen, hfree.frame fun q hq => hsame q (hinfo hq)⟩
  | written path info =>
      obtain ⟨hread, hfree⟩ := h
      exact ⟨(hsame path List.mem_cons_self).read.trans hread, hfree.frame fun q hq => hsame q (hinfo hq)⟩
  | entry path info =>
      obtain ⟨hread, hfree⟩ := h
      refine ⟨(hsame path List.mem_cons_self).read.trans hread, hfree.frame fun q hq => hsame q ?_⟩
      obtain rfl := Option.some.inj hq
      exact List.mem_cons_of_mem _ List.mem_cons_self
  | writingEntry path info file n =>
      obtain ⟨hread, hne, hdir, hdata, hlen⟩ := h
      have hpath := hsame info (List.mem_cons_of_mem _ List.mem_cons_self)
      exact ⟨(hsame path List.mem_cons_self).read.trans hread, hne, hpath.dir.trans hdir,
        (hpath.data file hdir).trans hdata, hlen⟩
  | delivered path info =>
      obtain ⟨hread, hentry⟩ := h
      exact ⟨(hsame path List.mem_cons_self).read.trans hread, fun q hq =>
        (hsame q (hinfo hq)).read.trans (hentry q hq)⟩
  | lost => exact h
  | failed => trivial

/-- A name of a delivery is that of a file, or it is going to be opened. -/
theorem Job.Knows.opened (h : job.Knows f φ) (hq : q ∈ φ.names) : q ∈ φ.pending ∨ f.dir q ≠ none := by
  have hread : ∀ {p c : List Byte}, f.read p = some c → f.dir p ≠ none := by
    intro p c hc hnone
    unfold Files.read at hc
    rw [hnone] at hc
    cases hc
  cases φ with
  | retry => cases hq
  | timed path info => cases hq
  | half path info => exact .inl hq
  | free path info => exact .inl hq
  | writing path info file n =>
      rcases List.mem_cons.mp hq with rfl | hq
      · rw [h.1]
        exact .inr (Option.some_ne_none _)
      · exact .inl hq
  | written path info =>
      rcases List.mem_cons.mp hq with rfl | hq
      · exact .inr (hread h.1)
      · exact .inl hq
  | entry path info =>
      rcases List.mem_cons.mp hq with rfl | hq
      · exact .inr (hread h.1)
      · exact .inl hq
  | writingEntry path info file n =>
      rcases List.mem_cons.mp hq with rfl | hq
      · exact .inr (hread h.1)
      · obtain rfl := List.mem_singleton.mp hq
        obtain ⟨-, -, hdir, -⟩ := h
        rw [hdir]
        exact .inr (Option.some_ne_none _)
  | delivered path info =>
      rcases List.mem_cons.mp hq with rfl | hq
      · exact .inr (hread h.1)
      · cases info with
        | none => cases hq
        | some info =>
            obtain rfl := List.mem_singleton.mp hq
            exact .inr (hread (h.2 q rfl))
  | lost => exact h.elim
  | failed => cases hq

/-- What a step does: its delivery knows what it should then, only files with its names have changed,
and a name that is new is the one that `stat` was called with. -/
structure StepKeeps (job : Job) (e : Event) (f f' : Files (List Byte) Byte) (φ φ' : Phase) : Prop where
  sound : f'.Sound
  knows : job.Knows f' φ'
  agrees : ∀ p, p ∉ φ.names → Files.SameAt f f' p
  taken : ∀ p ∈ φ'.names, p ∈ φ.names ∨ e = .stat ∧ φ.asks = some p ∧ f.dir p = none

/-- A step that changes no file. -/
theorem StepKeeps.still (hf : f.Sound) (hknows : job.Knows f φ')
    (htaken : ∀ p ∈ φ'.names, p ∈ φ.names ∨ e = .stat ∧ φ.asks = some p ∧ f.dir p = none) :
    StepKeeps job e f f φ φ' :=
  ⟨hf, hknows, fun p _ => .refl f p, htaken⟩

/-- Behind the message there is the entry, or the delivery has ended. -/
theorem Job.Knows.next (hread : f.read path = some job.text) (hfree : FreeInfo f path info) :
    job.Knows f (.next path info) := by
  cases info with
  | none => exact ⟨hread, fun q hq => by cases hq⟩
  | some info => exact ⟨hread, hfree⟩

theorem Phase.names_next (path : List Byte) (info : Option (List Byte)) :
    (Phase.next path info).names = path :: info.toList := by
  cases info with
  | none => rfl
  | some info => rfl

theorem take_more {l : List Byte} {n k : Nat} : l.take n ++ (l.drop n).take k = l.take (n + k) := List.take_add.symm

/-- A step of a delivery that does not ask for a name which it is going to open, and does not lose its
message, does this. -/
theorem Job.step_keeps (hf : f.Sound) (hknows : job.Knows f φ) (hasks : e = .stat → ∀ p ∈ φ.asks, p ∉ φ.pending)
    (hlost : e = .fopen false → job.caller = .smtpAccept → φ.atEntry = false)
    (h : job.step e f φ = some (f', φ')) : StepKeeps job e f f' φ φ' := by
  cases φ with
  | retry =>
      cases e with
      | clock t =>
          cases h
          exact .still hf trivial fun p hp => by cases hp
      | _ => cases h
  | timed path info =>
      simp only [Job.step] at h
      by_cases he : e = .stat
      · rw [if_pos he] at h
        cases hstat : f.stat path with
        | true =>
            rw [hstat] at h
            cases h
            exact .still hf trivial fun p hp => by cases hp
        | false =>
            rw [hstat] at h
            have hfree := Files.dir_of_stat hstat
            cases info with
            | none =>
                cases h
                refine .still hf ⟨hfree, fun q hq => by cases hq⟩ fun p hp => .inr ⟨he, ?_, ?_⟩
                · rw [List.mem_singleton.mp hp]
                  rfl
                · rw [List.mem_singleton.mp hp]
                  exact hfree
            | some info =>
                cases h
                refine .still hf hfree fun p hp => .inr ⟨he, ?_, ?_⟩
                · rw [List.mem_singleton.mp hp]
                  rfl
                · rw [List.mem_singleton.mp hp]
                  exact hfree
      · rw [if_neg he] at h
        cases h
  | half path info =>
      simp only [Job.step] at h
      by_cases he : e = .stat
      · rw [if_pos he] at h
        cases hstat : f.stat info with
        | true =>
            rw [hstat] at h
            cases h
            exact .still hf trivial fun p hp => by cases hp
        | false =>
            rw [hstat] at h
            cases h
            have hfree := Files.dir_of_stat hstat
            have hne : info ≠ path := fun heq => hasks he info rfl (by rw [heq]; exact List.mem_cons_self)
            refine .still hf ⟨hknows, fun q hq => ?_⟩ fun p hp => ?_
            · obtain rfl := Option.some.inj hq
              exact ⟨hne, hfree⟩
            · rcases List.mem_cons.mp hp with rfl | hp
              · exact .inl List.mem_cons_self
              · obtain rfl := List.mem_singleton.mp hp
                exact .inr ⟨he, rfl, hfree⟩
      · rw [if_neg he] at h
        cases h
  | free path info =>
      obtain ⟨hdir, hfree⟩ := hknows
      cases e with
      | fopen opens =>
          cases opens with
          | true =>
              cases h
              obtain ⟨hnew, hempty⟩ := Files.openWrite_dir f path
              refine ⟨Files.openWrite_sound hf path, ⟨hnew, hempty, Nat.zero_le _, hfree.frame fun q hq => ?_⟩,
                fun p hp => ?_, fun p hp => .inl hp⟩
              · exact Files.openWrite_same hf (hfree q hq).1
              · exact Files.openWrite_same hf fun heq => hp (by rw [heq]; exact List.mem_cons_self)
          | false =>
              cases h
              exact .still hf trivial fun p hp => by cases hp
      | _ => cases h
  | writing path info file n =>
      obtain ⟨hdir, hdata, hlen, hfree⟩ := hknows
      cases e with
      | fwrite k =>
          simp only [Job.step] at h
          by_cases hk : 0 < k ∧ n + k ≤ job.text.length
          · rw [if_pos hk] at h
            cases h
            have hn : (f.data file).length = n := by rw [hdata, List.length_take_of_le hlen]
            have hsame : ∀ p, p ≠ path → Files.SameAt f (f.writeAt file n ((job.text.drop n).take k)) p :=
              fun p hp => Files.writeAt_same hf hdir n _ hp
            refine ⟨Files.writeAt_sound hf _ _ _, ⟨hdir, ?_, hk.2, hfree.frame fun q hq => hsame q (hfree q hq).1⟩,
              fun p hp => hsame p fun heq => hp (by rw [heq]; exact List.mem_cons_self), fun p hp => .inl hp⟩
            rw [Files.writeAt_data hn, hdata, take_more]
          · rw [if_neg hk] at h
            cases h
      | fclose =>
          simp only [Job.step] at h
          by_cases hn : n = job.text.length
          · rw [if_pos hn] at h
            have hread : f.read path = some job.text := by
              rw [Files.read_of_dir hdir, hdata, hn, List.take_length]
            cases hcaller : job.caller with
            | smtpAccept =>
                rw [hcaller] at h
                cases h
                exact .still hf ⟨hread, hfree⟩ fun p hp => .inl hp
            | bounceSend =>
                rw [hcaller] at h
                cases h
                refine .still hf (Knows.next hread hfree) fun p hp => .inl ?_
                rw [Caller.closed, Phase.names_next] at hp
                exact hp
          · rw [if_neg hn] at h
            cases h
      | _ => cases h
  | written path info =>
      obtain ⟨hread, hfree⟩ := hknows
      cases e with
      | filters rejected =>
          cases rejected with
          | true =>
              cases h
              exact ⟨Files.unlink_sound hf path, trivial, fun p hp =>
                Files.unlink_same f fun heq => hp (by rw [heq]; exact List.mem_cons_self), fun p hp => by cases hp⟩
          | false =>
              cases h
              refine .still hf (Knows.next hread hfree) fun p hp => .inl ?_
              rw [Phase.names_next] at hp
              exact hp
      | _ => cases h
  | entry path info =>
      obtain ⟨hread, hfree⟩ := hknows
      obtain ⟨hne, hdir⟩ := hfree info rfl
      cases e with
      | fopen opens =>
          cases opens with
          | true =>
              cases h
              obtain ⟨hnew, hempty⟩ := Files.openWrite_dir f info
              refine ⟨Files.openWrite_sound hf info, ⟨?_, hne, hnew, hempty, Nat.zero_le _⟩, fun p hp => ?_,
                fun p hp => .inl hp⟩
              · rw [(Files.openWrite_same hf (Ne.symm hne)).read]
                exact hread
              · exact Files.openWrite_same hf fun heq => hp (by
                  rw [heq]
                  exact List.mem_cons_of_mem _ List.mem_cons_self)
          | false =>
              cases hcaller : job.caller with
              | smtpAccept => cases hlost rfl hcaller
              | bounceSend =>
                  simp only [Job.step] at h
                  rw [hcaller] at h
                  cases h
                  exact ⟨Files.unlink_sound hf path, trivial, fun p hp =>
                    Files.unlink_same f fun heq => hp (by rw [heq]; exact List.mem_cons_self), fun p hp => by cases hp⟩
      | _ => cases h
  | writingEntry path info file n =>
      obtain ⟨hread, hne, hdir, hdata, hlen⟩ := hknows
      cases e with
      | fwrite k =>
          simp only [Job.step] at h
          by_cases hk : 0 < k ∧ n + k ≤ job.entry.length
          · rw [if_pos hk] at h
            cases h
            have hn : (f.data file).length = n := by rw [hdata, List.length_take_of_le hlen]
            have hsame : ∀ p, p ≠ info → Files.SameAt f (f.writeAt file n ((job.entry.drop n).take k)) p :=
              fun p hp => Files.writeAt_same hf hdir n _ hp
            refine ⟨Files.writeAt_sound hf _ _ _, ⟨?_, hne, hdir, ?_, hk.2⟩, fun p hp => hsame p fun heq => hp ?_,
              fun p hp => .inl hp⟩
            · rw [(hsame path (Ne.symm hne)).read]
              exact hread
            · rw [Files.writeAt_data hn, hdata, take_more]
            · rw [heq]
              exact List.mem_cons_of_mem _ List.mem_cons_self
          · rw [if_neg hk] at h
            cases h
      | fclose =>
          simp only [Job.step] at h
          by_cases hn : n = job.entry.length
          · rw [if_pos hn] at h
            cases h
            refine .still hf ⟨hread, fun q hq => ?_⟩ fun p hp => .inl hp
            obtain rfl := Option.some.inj hq
            rw [Files.read_of_dir hdir, hdata, hn, List.take_length]
          · rw [if_neg hn] at h
            cases h
      | _ => cases h
  | delivered path info => cases h
  | lost => cases h
  | failed => cases h

/-! ### Runs -/

variable {ι : Type}

/-- Deliveries hold the names that they have found free. -/
def discipline (jobs : ι → Job) : Discipline ι (Files (List Byte) Byte) Phase (List Byte) where
  Holds φ p := p ∈ φ.names
  Knows i φ f := (jobs i).Knows f φ
  Agrees := Files.SameAt
  frame _ _ _ _ hsame h := h.frame hsame

variable [DecidableEq ι] {jobs : ι → Job} {s t : Deliveries ι} {x : ι × Event}

theorem careful_step (hinv : s.1.Sound ∧ (discipline jobs).Inv s) (hx : Careful jobs s x)
    (h : stepAt (fun i => (jobs i).step) s x = some t) : t.1.Sound ∧ (discipline jobs).Inv t := by
  obtain ⟨hf, hinv⟩ := hinv
  obtain ⟨r, hr, rfl⟩ := Option.map_eq_some_iff.mp h
  obtain ⟨hsound, hknows, hagrees, htaken⟩ :=
    Job.step_keeps hf (hinv.knows x.1) (fun he p hp => hx.1 he p hp x.1) hx.2 hr
  refine ⟨hsound, hinv.step hknows (fun p hp _ => hagrees p hp) fun p hp => ?_⟩
  rcases htaken p hp with hold | ⟨he, hasks, hdir⟩
  · exact .inl hold
  · -- a file with this name would be there, and no other delivery is going to open it
    refine .inr fun j hj hheld => ?_
    rcases (hinv.knows j).opened hheld with hpending | hthere
    · exact hx.1 he p hasks j hpending
    · exact hthere hdir

/-- With careful steps no message is overwritten, in any order of the steps and with any clock. -/
theorem notOverwritten_of_careful (jobs : ι → Job) (s t : Deliveries ι) (hs : s.Initial) (xs : List (ι × Event))
    (hxs : Always (fun i => (jobs i).step) (Careful jobs) s xs)
    (h : interleave (fun i => (jobs i).step) s xs = some t) : NotOverwritten jobs t := by
  have hstart : s.1.Sound ∧ (discipline jobs).Inv s := by
    refine ⟨hs.sound, fun i => ?_, fun i j p _ hp => ?_⟩
    · show (jobs i).Knows s.1 (s.2 i)
      rw [hs.retry i]
      trivial
    · have hp' : p ∈ (s.2 i).names := hp
      rw [hs.retry i] at hp'
      cases hp'
  obtain ⟨-, hknows, hapart⟩ :=
    interleave_keeps (A := fun s => s.1.Sound ∧ (discipline jobs).Inv s) (fun s x t => careful_step) hstart hxs h
  have hk : ∀ i φ, t.2 i = φ → (jobs i).Knows t.1 φ := fun i φ hφ => hφ ▸ hknows i
  refine ⟨fun i hi => hk i _ hi, fun i path info hi => (hk i _ hi).1, fun i path info hi => (hk i _ hi).2 info rfl, ?_⟩
  intro i j path info path' info' hij hi hj hpath
  refine hapart i j path hij ?_ ?_
  · show path ∈ (t.2 i).names
    rw [hi]
    exact List.mem_cons_self
  · show path ∈ (t.2 j).names
    rw [hj, hpath]
    exact List.mem_cons_self

end

/-- In every run from a state where no delivery has begun no message is overwritten. -/
def NeverOverwritten {ι : Type} [DecidableEq ι] (jobs : ι → Job) : Prop :=
  ∀ (s t : Deliveries ι) (xs : List (ι × Event)), s.Initial →
    interleave (fun i => (jobs i).step) s xs = some t → NotOverwritten jobs t

/-- A message for a mailbox. -/
def mailboxJob (caller : Caller) (var : List Byte) (domainid : Int) (mailbox text : List Byte) : Job where
  caller := caller
  names t := (mailspoolFile var domainid mailbox t, none)
  text := text
  entry := []

/-- Two clients send a message to the same mailbox. -/
def twoClients (first : Bool) : Job :=
  mailboxJob .smtpAccept (bytes "v") 1 (bytes "a") (if first then bytes "one" else bytes "two")

/-- No file is there yet. -/
def noDelivery : Deliveries Bool := ({ dir := fun _ => none, data := fun _ => [], next := 0 }, fun _ => .retry)

theorem noDelivery_initial : noDelivery.Initial where
  sound := ⟨fun _ _ h => absurd h (Option.some_ne_none _).symm, fun _ _ _ h => absurd h (Option.some_ne_none _).symm⟩
  retry _ := rfl

/-- What is left of a delivery behind its `stat`. -/
def deliver (first : Bool) : List (Bool × Event) :=
  [(first, .fopen true), (first, .fwrite 3), (first, .fclose), (first, .filters false)]

/-- The second client reads the clock in the same millisecond, but calls `stat` when the file is open. -/
def oneAfterTheOther : List (Bool × Event) :=
  [(true, .clock (5, 0)), (false, .clock (5, 0)), (true, .stat)] ++ deliver true ++
    [(false, .stat), (false, .clock (5, 1)), (false, .stat)] ++ deliver false

theorem notOverwritten_oneAfterTheOther :
    NotOverwritten twoClients ((interleave (fun i => (twoClients i).step) noDelivery oneAfterTheOther).get
      (by decide +kernel)) :=
  notOverwritten_of_careful twoClients noDelivery _ noDelivery_initial oneAfterTheOther (by decide +kernel)
    (Option.some_get _).symm

/-- Both clients call `stat` before one of them opens the file. -/
def atOnce : List (Bool × Event) :=
  [(true, .clock (5, 0)), (false, .clock (5, 0)), (true, .stat), (false, .stat)] ++ deliver true ++ deliver false

/-- Both are told that their message was delivered, to the same file. -/
theorem not_neverOverwritten : ¬ NeverOverwritten twoClients := by
  intro h
  let path := mailspoolFile (bytes "v") 1 (bytes "a") (5, 0)
  have hphases : (interleave (fun i => (twoClients i).step) noDelivery atOnce).map (fun t => (t.2 true, t.2 false)) =
      some (.delivered path none, .delivered path none) := by decide +kernel
  obtain ⟨t, ht, hboth⟩ := Option.map_eq_some_iff.mp hphases
  obtain ⟨hfirst, hsecond⟩ := Prod.mk.inj hboth
  exact (h noDelivery t atOnce noDelivery_initial ht).own true false path none path none (by decide) hfirst hsecond rfl

end NullG.Mail
