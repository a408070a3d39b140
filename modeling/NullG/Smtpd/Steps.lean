/-
The steps of a delivery and the delivery as a whole.

`writeMessage` and `writeBounce` are one run of the steps of a delivery, and so is the search for a
free name, when no other delivery takes a step in between.
-/

import Mathlib.Logic.Relation
import NullG.Mail.Deliveries
import NullG.Smtpd.Session

namespace NullG.Smtpd

open NullG.Nsp NullG.Lib NullG.Mail

/-- One step of a delivery that is alone. -/
def Takes (job : Job) (a b : Files (List Byte) Byte × Phase) : Prop := ∃ e, job.step e a.1 a.2 = some b

/-- Steps of a delivery that is alone. -/
def Performs (job : Job) : Files (List Byte) Byte × Phase → Files (List Byte) Byte × Phase → Prop :=
  Relation.ReflTransGen (Takes job)

/-- The files are those of the disk. -/
structure OnDisk (f : Files (List Byte) Byte) (d : Disk) : Prop where
  sound : f.Sound
  read : ∀ p, f.read p = d p

section

variable {job : Job} {f : Files (List Byte) Byte} {d : Disk} {path : List Byte} {info : Option (List Byte)}

theorem OnDisk.stat (h : OnDisk f d) (p : List Byte) : f.stat p = d.stat p := by
  unfold Files.stat Disk.stat
  rw [← h.read p]
  unfold Files.read
  rw [Option.isSome_map]

theorem OnDisk.unlink (h : OnDisk f d) (p : List Byte) : OnDisk (f.unlink p) (d.unlink p) := by
  refine ⟨Files.unlink_sound h.sound p, fun q => ?_⟩
  unfold Disk.unlink
  by_cases hq : q = p
  · rw [if_pos hq, hq]
    unfold Files.read
    rw [Files.unlink_dir]
    rfl
  · rw [if_neg hq, (Files.unlink_same f hq).read]
    exact h.read q

/-- A file that is opened and written as a whole. -/
def written (f : Files (List Byte) Byte) (p text : List Byte) : Files (List Byte) Byte :=
  (f.openWrite p).2.writeAt (f.openWrite p).1 0 text

theorem OnDisk.write (h : OnDisk f d) (p text : List Byte) : OnDisk (written f p text) (d.write p text) := by
  obtain ⟨hdir, hdata⟩ := Files.openWrite_dir f p
  have hsound := Files.openWrite_sound h.sound p
  refine ⟨Files.writeAt_sound hsound _ _ _, fun q => ?_⟩
  by_cases hq : q = p
  · rw [hq, Disk.write_self]
    have hread : (written f p text).read p = some ((written f p text).data (f.openWrite p).1) := Files.read_of_dir hdir
    rw [hread, written, Files.writeAt_data (by rw [hdata]; rfl), hdata]
    rfl
  · rw [Disk.write_of_ne d text hq, written, (Files.writeAt_same hsound hdir 0 text hq).read,
      (Files.openWrite_same h.sound hq).read]
    exact h.read q

/-- The message is written. -/
theorem runs_message (htext : job.text ≠ []) :
    Performs job (f, .free path info) (written f path job.text, job.caller.closed path info) := by
  have hpos := List.length_pos_of_ne_nil htext
  refine .head (b := ((f.openWrite path).2, .writing path info (f.openWrite path).1 0)) ⟨.fopen true, rfl⟩ ?_
  refine .head (b := (written f path job.text, .writing path info (f.openWrite path).1 job.text.length))
    ⟨.fwrite job.text.length, ?_⟩ ?_
  · simp only [Job.step, Nat.zero_add, List.drop_zero, List.take_length]
    rw [if_pos ⟨hpos, Nat.le_refl _⟩]
    rfl
  · refine .single ⟨.fclose, ?_⟩
    simp only [Job.step, if_true]

/-- The entry is written. -/
theorem runs_entry {info : List Byte} (hentry : job.entry ≠ []) :
    Performs job (f, .entry path info) (written f info job.entry, .delivered path (some info)) := by
  have hpos := List.length_pos_of_ne_nil hentry
  refine .head (b := ((f.openWrite info).2, .writingEntry path info (f.openWrite info).1 0)) ⟨.fopen true, rfl⟩ ?_
  refine .head (b := (written f info job.entry, .writingEntry path info (f.openWrite info).1 job.entry.length))
    ⟨.fwrite job.entry.length, ?_⟩ ?_
  · simp only [Job.step, Nat.zero_add, List.drop_zero, List.take_length]
    rw [if_pos ⟨hpos, Nat.le_refl _⟩]
    rfl
  · refine .single ⟨.fclose, ?_⟩
    simp only [Job.step, if_true]

/-- A look at the names: back to `retry` where one of them is taken. -/
theorem runs_stat (job : Job) (f : Files (List Byte) Byte) (path : List Byte) (info : Option (List Byte)) :
    Performs job (f, .timed path info)
      (f, if (path :: info.toList).any f.stat then .retry else .free path info) := by
  cases hpath : f.stat path with
  | true =>
      have htaken : (path :: info.toList).any f.stat = true := by
        rw [List.any_cons, hpath]
        rfl
      rw [if_pos htaken]
      exact .single ⟨.stat, by simp only [Job.step, hpath, if_true]⟩
  | false =>
      have hrest : (path :: info.toList).any f.stat = info.toList.any f.stat := by
        rw [List.any_cons, hpath]
        rfl
      rw [hrest]
      cases info with
      | none => exact .single ⟨.stat, by simp only [Job.step, hpath]; rfl⟩
      | some info =>
          have hhalf : Takes job (f, .timed path (some info)) (f, .half path info) :=
            ⟨.stat, by simp only [Job.step, hpath]; rfl⟩
          refine .head hhalf (.single ⟨.stat, ?_⟩)
          show (if f.stat info then some (f, Phase.retry) else some (f, .free path (some info))) = _
          have hone : (some info).toList.any f.stat = f.stat info := Bool.or_false _
          rw [hone]
          cases f.stat info <;> rfl

/-- The search for free names is a run of steps. -/
theorem freeTime_performs {sys : System} {names : Nat × Nat → List (List Byte)} {patience : Nat} {t : Nat × Nat}
    {w w' : World}
    (hnames : ∀ t, names t = (job.names t).1 :: (job.names t).2.toList) (hf : OnDisk f w.disk)
    (h : freeTime sys names patience w = .ok t w') :
    w'.disk = w.disk ∧ Performs job (f, .retry) (f, .free (job.names t).1 (job.names t).2) := by
  induction patience generalizing w with
  | zero => cases h
  | succ patience ih =>
      obtain ⟨n, w₁, htick, h⟩ := bind_run_ok h
      cases htick
      obtain ⟨w₂, w₃, hget, h⟩ := bind_run_ok h
      cases hget
      let now := sys.clock w.tick
      have hclock : Takes job (f, .retry) (f, .timed (job.names now).1 (job.names now).2) := ⟨.clock now, rfl⟩
      have hround := Relation.ReflTransGen.head hclock (runs_stat job f (job.names now).1 (job.names now).2)
      have hstat : (names now).any w.disk.stat = ((job.names now).1 :: (job.names now).2.toList).any f.stat := by
        rw [hnames, funext hf.stat]
      by_cases htaken : (names now).any w.disk.stat = true
      · -- behind a name that is taken the delivery is where it was
        rw [← hstat, if_pos htaken] at hround
        rw [if_pos htaken] at h
        obtain ⟨hdisk, hruns⟩ := ih (w := ⟨w.disk, w.tick + 1⟩) hf h
        exact ⟨hdisk, hround.trans hruns⟩
      · rw [← hstat, if_neg htaken] at hround
        rw [if_neg htaken] at h
        cases h
        exact ⟨rfl, hround⟩

theorem noDelivery_onDisk : OnDisk noDelivery.1 (fun _ => none) := ⟨noDelivery_initial.sound, fun _ => rfl⟩

/-- A bounce to `a@h`, in a file that has the name of its second. -/
def bounceJob : Job where
  caller := .bounceSend
  names t := ([t.1.toUInt8], none)
  text := bounceText (bytes "h") (bytes "d") (bytes "a@h") (bytes "b@h") (bytes "r") none
  entry := bounceInfo (bytes "a@h") (bytes "q")

/-- The first second is taken. -/
theorem freeTime_performs_second : ∃ w, freeTime goodEnv.toSystem (fun t => [[t.1.toUInt8]]) 10
      { disk := Disk.write (fun _ => none) [0] [65] } = .ok (1, 0) w ∧
    Performs bounceJob (written noDelivery.1 [0] [65], .retry) (written noDelivery.1 [0] [65], .free [1] none) := by
  obtain ⟨w, hrun⟩ : ∃ w, freeTime goodEnv.toSystem (fun t => [[t.1.toUInt8]]) 10
      { disk := Disk.write (fun _ => none) [0] [65] } = .ok (1, 0) w := ⟨_, rfl⟩
  have hnames : ∀ t, [[t.1.toUInt8]] = (bounceJob.names t).1 :: (bounceJob.names t).2.toList := fun _ => rfl
  exact ⟨w, hrun, (freeTime_performs hnames (noDelivery_onDisk.write _ _) hrun).2⟩

/-- A file is written as a whole, or the disk is as it was. -/
theorem fopenWrite_disk {sys : System} {p text : List Byte} {w u : World} {opens : Bool}
    (h : fopenWrite sys p text w = .ok opens u) : u.disk = if opens then w.disk.write p text else w.disk := by
  rw [fopenWrite_eq] at h
  by_cases hopens : sys.opens w.tick = true
  · rw [if_pos hopens] at h
    cases h
    rfl
  · rw [if_neg hopens] at h
    cases h
    rfl

theorem onWorld_run {α : Type} {y : W α} {s t : Session} {a : α} (h : onWorld y s = .ok a t) :
    y s.world = .ok a t.world := by
  obtain ⟨w, hw⟩ := onWorld_ok h
  cases (onWorld_ok_run hw).symm.trans h
  exact hw

/-- From the point where the names are found `bounce_send` is a run of the steps of a delivery: it is
delivered where 0 is returned, and else it has failed. -/
theorem writeBounce_performs {sys : System} {w u : World} {sender rcpt reason : List Byte}
    {origMsg : Option (List Byte)} {rc : Int} (hcaller : job.caller = .bounceSend)
    (htext : job.text = bounceText sys.hostName (sys.date w.tick) sender rcpt reason (origMsg.bind w.disk))
    (hentry : job.entry = bounceInfo sender (sys.sqlDate w.tick)) (hf : OnDisk f w.disk)
    (h : writeBounce sys path info sender rcpt origMsg reason w = .ok rc u) :
    ∃ f' φ, Performs job (f, .free path info) (f', φ) ∧ OnDisk f' u.disk ∧
      (rc = 0 ∧ φ = .delivered path info ∨ rc = -1 ∧ φ = .failed) := by
  have htext' : job.text ≠ [] := by
    rw [htext]
    exact List.cons_ne_nil _ _
  have hentry' : job.entry ≠ [] := by
    rw [hentry]
    exact List.cons_ne_nil _ _
  have hmessage : Performs job (f, .free path info) (written f path job.text, .next path info) := by
    have hruns := @runs_message job f path info htext'
    rw [hcaller] at hruns
    exact hruns
  have hthere := hf.write path job.text
  unfold writeBounce at h
  rw [run_bind_of_ok (tick_eq w), run_bind_of_ok (get_eq _), show w.ticked.disk = w.disk from rfl, ← htext,
    ← hentry] at h
  obtain ⟨opens, w₁, hopen, h⟩ := bind_run_ok h
  have hdisk := fopenWrite_disk hopen
  cases opens with
  | false =>
      cases h
      rw [show u.disk = w.disk from hdisk]
      exact ⟨f, .failed, .single ⟨.fopen false, rfl⟩, hf, .inr ⟨rfl, rfl⟩⟩
  | true =>
      have hdisk₁ : w₁.disk = w.disk.write path job.text := hdisk
      cases info with
      | none =>
          cases h
          rw [hdisk₁]
          exact ⟨_, _, hmessage, hthere, .inl ⟨rfl, rfl⟩⟩
      | some q =>
          obtain ⟨opens', w₂, hopen', h⟩ := bind_run_ok (x := fopenWrite sys q job.entry) h
          have hdisk' := fopenWrite_disk hopen'
          rw [hdisk₁] at hdisk'
          cases opens' with
          | false =>
              cases h
              refine ⟨(written f path job.text).unlink path, .failed, hmessage.tail ⟨.fopen false, ?_⟩, ?_,
                .inr ⟨rfl, rfl⟩⟩
              · show some (_, job.caller.noEntry) = _
                rw [hcaller]
                rfl
              · show OnDisk _ (w₂.disk.unlink path)
                rw [show w₂.disk = w.disk.write path job.text from hdisk']
                exact hthere.unlink path
          | true =>
              cases h
              rw [show u.disk = (w.disk.write path job.text).write q job.entry from hdisk']
              exact ⟨_, _, hmessage.trans (runs_entry hentry'), hthere.write q job.entry, .inl ⟨rfl, rfl⟩⟩

/-- The bounce, in the queue. -/
theorem writeBounce_performs_queued : ∃ u f' φ,
    writeBounce goodEnv.toSystem [1] (some [2]) (bytes "a@h") (bytes "b@h") none (bytes "r") {} = .ok 0 u ∧
      Performs bounceJob (noDelivery.1, .free [1] (some [2])) (f', φ) ∧ OnDisk f' u.disk := by
  obtain ⟨u, hrun⟩ : ∃ u, writeBounce goodEnv.toSystem [1] (some [2]) (bytes "a@h") (bytes "b@h") none (bytes "r") {} =
      .ok 0 u := ⟨_, rfl⟩
  have hcaller : bounceJob.caller = .bounceSend := rfl
  have hjob := fun htext hentry => writeBounce_performs hcaller htext hentry noDelivery_onDisk hrun
  obtain ⟨f', φ, hperforms, hdisk, -⟩ := hjob rfl rfl
  exact ⟨u, f', φ, hrun, hperforms, hdisk⟩

/-- So is `smtp_accept` for a recipient. Where it goes on without a queue entry the message is lost. -/
theorem writeMessage_performs {env : Env} {now : Nat} {rcpt : List Byte} {s t : Session} {r : Option Int}
    (hcaller : job.caller = .smtpAccept)
    (htext : job.text = receivedText env s.mconn.helo rcpt (env.date now) ++ s.mconn.msgbody)
    (hentry : job.entry = mqinfoText s.mconn.sender rcpt (env.sqlDate now)) (hf : OnDisk f s.world.disk)
    (h : writeMessage env now path info rcpt s = .ok r t) :
    ∃ f' φ, Performs job (f, .free path info) (f', φ) ∧ OnDisk f' t.world.disk ∧
      (r = none ∧ (φ = .delivered path info ∨ φ = .lost) ∨ r ≠ none ∧ φ = .failed) := by
  have htext' : job.text ≠ [] := by
    rw [htext]
    exact List.cons_ne_nil _ _
  have hentry' : job.entry ≠ [] := by
    rw [hentry]
    exact List.cons_ne_nil _ _
  have hmessage : Performs job (f, .free path info) (written f path job.text, .written path info) := by
    have hruns := @runs_message job f path info htext'
    rw [hcaller] at hruns
    exact hruns
  have hthere := hf.write path job.text
  -- a message that is rejected is unlinked
  have hreject : Performs job (f, .free path info) ((written f path job.text).unlink path, .failed) :=
    hmessage.tail ⟨.filters true, rfl⟩
  unfold writeMessage at h
  rw [run_bind_of_ok (get_run s)] at h
  dsimp only at h
  rw [← htext] at h
  obtain ⟨opens, s₁, hopen, h⟩ := bind_run_ok h
  have hdisk := fopenWrite_disk (onWorld_run hopen)
  cases opens with
  | false =>
      cases h
      rw [show t.world.disk = s.world.disk from hdisk]
      exact ⟨f, .failed, .single ⟨.fopen false, rfl⟩, hf, .inr ⟨Option.some_ne_none _, rfl⟩⟩
  | true =>
      have hm₁ : s₁.mconn = s.mconn := onWorld_mconn hopen
      obtain ⟨a, s₂, hnote, h⟩ := bind_run_ok h
      cases hnote
      obtain ⟨n, s₃, htick, h⟩ := bind_run_ok h
      cases htick
      by_cases hpost : env.postfilter s₁.world.tick ≠ 0
      · rw [if_pos hpost] at h
        cases h
        refine ⟨_, _, hreject, ?_, .inr ⟨Option.some_ne_none _, rfl⟩⟩
        show OnDisk _ (s₁.world.disk.unlink path)
        rw [hdisk]
        exact hthere.unlink path
      rw [if_neg hpost] at h
      obtain ⟨n, s₄, htick, h⟩ := bind_run_ok h
      cases htick
      by_cases hscan : env.filterScan (s₁.world.tick + 1) > 0
      · rw [if_pos hscan] at h
        cases h
        refine ⟨_, _, hreject, ?_, .inr ⟨Option.some_ne_none _, rfl⟩⟩
        show OnDisk _ (s₁.world.disk.unlink path)
        rw [hdisk]
        exact hthere.unlink path
      rw [if_neg hscan] at h
      have haccept : Performs job (f, .free path info) (written f path job.text, .next path info) :=
        hmessage.tail ⟨.filters false, rfl⟩
      cases info with
      | none =>
          cases h
          refine ⟨_, _, haccept, ?_, .inl ⟨rfl, .inl rfl⟩⟩
          show OnDisk _ s₁.world.disk
          rw [hdisk]
          exact hthere
      | some q =>
          let u : Session := { s₁ with writes := s₁.writes ++ [⟨path, rcpt, s₁.mconn.msgbody, s₁.relays.getLast?⟩] }
          have h' : (do
              if ← onWorld (fopenWrite env.toSystem q (mqinfoText s₁.mconn.sender rcpt (env.sqlDate now))) then
                return none
              onWorld (unlink path)
              return none : S (Option Int)) u.ticked.ticked = .ok r t := h
          rw [hm₁, ← hentry] at h'
          obtain ⟨opens', s₂, hopen', h⟩ := bind_run_ok h'
          have hdisk' := fopenWrite_disk (onWorld_run hopen')
          rw [show u.ticked.ticked.world.disk = s.world.disk.write path job.text from hdisk] at hdisk'
          cases opens' with
          | false =>
              cases h
              refine ⟨(written f path job.text).unlink path, .lost, haccept.tail ⟨.fopen false, ?_⟩, ?_,
                .inl ⟨rfl, .inr rfl⟩⟩
              · show some (_, job.caller.noEntry) = _
                rw [hcaller]
                rfl
              · show OnDisk _ (s₂.world.disk.unlink path)
                rw [show s₂.world.disk = s.world.disk.write path job.text from hdisk']
                exact hthere.unlink path
          | true =>
              cases h
              refine ⟨_, _, haccept.trans (runs_entry hentry'), ?_, .inl ⟨rfl, .inl rfl⟩⟩
              show OnDisk _ t.world.disk
              rw [show t.world.disk = (s.world.disk.write path job.text).write q job.entry from hdisk']
              exact hthere.write q job.entry

/-- An empty message for `a@b`. -/
def acceptJob : Job where
  caller := .smtpAccept
  names t := ([t.1.toUInt8], none)
  text := receivedText goodEnv [] (bytes "a@b") (bytes "d") ++ []
  entry := mqinfoText [] (bytes "a@b") (bytes "q")

/-- It is queued. -/
theorem writeMessage_performs_queued : ∃ t f' φ,
    writeMessage goodEnv 0 [1] (some [2]) (bytes "a@b") (newSession [] []) = .ok none t ∧
      Performs acceptJob (noDelivery.1, .free [1] (some [2])) (f', φ) ∧ OnDisk f' t.world.disk := by
  obtain ⟨t, hrun⟩ : ∃ t, writeMessage goodEnv 0 [1] (some [2]) (bytes "a@b") (newSession [] []) = .ok none t :=
    ⟨_, rfl⟩
  have hcaller : acceptJob.caller = .smtpAccept := rfl
  have hjob := fun htext hentry => writeMessage_performs hcaller htext hentry noDelivery_onDisk hrun
  obtain ⟨f', φ, hperforms, hdisk, -⟩ := hjob rfl rfl
  exact ⟨t, f', φ, hrun, hperforms, hdisk⟩

end

end NullG.Smtpd
