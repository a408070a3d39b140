/-
The output buffer (`nl_flush`, `writestr`, `nl_print` and `nl_write` of `libn.c`, `nc_printf` and `n_warn` of `libc.c`,
the `?` of `nsp_exec`).

`outbuffer` is the array of `outbufmax + 1` bytes, and a write past its end is a fault. `writestr` flushes in time.
`nc_vsnprintf` writes the bytes of a format without a look at the room, cuts a conversion that is too long, and counts
it as a whole, so the buffer is right as long as what it writes fits (`bytes_kept`).
-/

import NullG.Lib.Memory
import NullG.Mail.Lines
import NullG.Nsp.Format

namespace NullG.Nsp.OutBuffer

open NullG.Lib NullG.Libs NullG.Mail

/-- `MAX_OUTBUFSIZE`, the value of `outbufmax`. -/
def outbufmax : Nat := 4096

/-- `OUTBUFLOWAT`. -/
def outbuflowat : Nat := 2048

/-- The output of an interpreter. -/
structure Out where
  outbuffer : List Byte
  outbuflen : Nat := 0
  /-- what was taken from the buffer -/
  flushed : List Byte := []
  /-- `lib.io.flush` is a function of another library, which takes all -/
  hooked : Bool := false
  /-- how much the next calls of `write` take, at most; later ones take all -/
  takes : List Nat := []
  warnings : Int := 0
  maxwarnings : Int := 500

/-- A write at `outbuffer + i`. -/
def put (mem : List Byte) (i : Nat) (xs : List Byte) : Except Fault (List Byte) :=
  match Memory.write mem i xs with
  | some mem => .ok mem
  | none => .error .outOfBounds

/-- `nl_flush`. -/
def nlFlush (o : Out) : Except Fault Out := do
  if o.outbuflen = 0 then return o
  else if o.hooked then
    return { o with flushed := o.flushed ++ o.outbuffer.take o.outbuflen, outbuflen := 0 }
  else
    let outbuffer ← put o.outbuffer o.outbuflen [0]
    let rc := (o.takes.head?.getD o.outbuflen)
    return { o with
      outbuffer := outbuffer
      flushed := o.flushed ++ (outbuffer.take o.outbuflen).take rc
      outbuflen := 0
      takes := o.takes.tail }

/-- `if (N->outbuflen > OUTBUFLOWAT) nl_flush(N);` -/
def flushLow (o : Out) : Except Fault Out := if o.outbuflen > outbuflowat then nlFlush o else .ok o

/-- The loop of `writestr`, and the NUL behind it. -/
def writestr : List Byte → Out → Except Fault Out
  | [], o => do
      let outbuffer ← put o.outbuffer o.outbuflen [0]
      return { o with outbuffer := outbuffer }
  | c :: p, o => do
      let o ← flushLow o
      let outbuffer ← put o.outbuffer o.outbuflen [c]
      writestr p { o with outbuffer := outbuffer, outbuflen := (o.outbuflen + 1) % 2 ^ 16 }

/-- The writes of `nc_vsnprintf` behind the first `len` bytes at `base`, and the length that is counted. -/
def putConvs (max : Int) (base : Nat) : List Conv → Nat → List Byte → Except Fault (Nat × List Byte)
  | [], len, mem => do
      let mem ← put mem (base + len) [0]
      return (len, mem)
  | .text s :: format, len, mem => do
      let mem ← put mem (base + len) s
      putConvs max base format (len + s.length) mem
  | .arg p :: format, len, mem => do
      -- `nc_strncpy`
      let n := max - len
      let mem ← if 0 < n then put mem (base + len) (p.take (n - 1).toNat ++ [0]) else pure mem
      putConvs max base format (len + p.length) mem

/-- `nc_vsnprintf` to the rest of the buffer. -/
def appendFormat (format : List Byte) (ap : Nat → VaArg) (o : Out) : Except Fault Out := do
  let writes ← vaFormat format ap
  let (len, outbuffer) ← putConvs ((outbufmax : Int) - o.outbuflen) o.outbuflen writes 0 o.outbuffer
  return { o with outbuffer := outbuffer, outbuflen := (o.outbuflen + len) % 2 ^ 16 }

/-- `nc_printf`. -/
def ncPrintf (format : List Byte) (ap : Nat → VaArg) (o : Out) : Except Fault Out := do
  let o ← flushLow o
  appendFormat format ap o

/-- A value that is written: a string, or what `nsp_tostr` makes of another one. -/
inductive Shown where
  | str (d : List Byte)
  | other (tostr : List Byte)

/-- What `writestr` writes of it: a string has its size. -/
def Shown.text : Shown → List Byte
  | .str d => d
  | .other tostr => cstr tostr

/-- What `nsp_tostr` points at. -/
def Shown.tostr : Shown → List Byte
  | .str d => d
  | .other tostr => tostr

/-- The name behind the last slash, as `n_warn` looks for it. -/
def baseName (fname : List Byte) : List Byte :=
  if fname.tail.any fun c => c == ch '\\' || c == ch '/' then
    (fname.reverse.takeWhile fun c => !(c == ch '\\' || c == ch '/')).reverse
  else fname

/-- What `n_warn` prints in front of a warning. -/
def warnHead (warnformat : Byte) : List Byte :=
  if warnformat = ch 'a' then bytes "\r\n\x1b[01;33;40m%s : line %d, "
  else if warnformat = ch 'h' then bytes "<BR /><B>%s : line %d, "
  else bytes "\r\n%s : line %d, "

/-- What it prints behind one. -/
def warnTail (warnformat : Byte) : List Byte :=
  if warnformat = ch 'a' then bytes "\r\n\x1b[00m"
  else if warnformat = ch 'h' then bytes "</B><BR />"
  else bytes "\r\n"

/-- The arguments of `warnHead`. -/
def warnArgs (fname : List Byte) (linenum : Int) (_ : Nat) : VaArg := { int := linenum, str := some (baseName fname) }

/-- What writes to the buffer. -/
inductive Call where
  | print (args : List Shown) (debug : Bool)
  | write (arg : Shown)
  | printf (format : List Byte) (args : List FmtArg)
  | question (r : Shown)
  | warn (fname : List Byte) (linenum : Int) (warnformat : Byte) (format : List Byte) (ap : Nat → VaArg)
  | flush

/-- The arguments of `nl_print`, one after the other. -/
def writeAll : List Shown → Out → Except Fault Out
  | [], o => .ok o
  | arg :: args, o => do
      let o ← writestr arg.text o
      writeAll args o

/-- A call. -/
def Call.run (o : Out) : Call → Except Fault Out
  | .print args debug => do
      let o ← writeAll args o
      if debug then nlFlush o else return o
  | .write arg => writestr arg.text o
  | .printf format args => do
      let str ← nlPrintf (cstr format) args
      writestr str o
  | .question r => ncPrintf (bytes "%s") (fun _ => { str := some r.tostr }) o
  | .warn fname linenum warnformat format ap => do
      let o := { o with warnings := o.warnings + 1 }
      -- `n_error` flushes, and leaves
      if o.warnings > o.maxwarnings then nlFlush o
      else
        let o ← flushLow o
        let o ← ncPrintf (warnHead warnformat) (warnArgs fname linenum) o
        let o ← appendFormat (cstr format) ap o
        let o ← ncPrintf (warnTail warnformat) (fun _ => {}) o
        nlFlush o
  | .flush => nlFlush o

/-- The text that `nc_vsnprintf` makes of a format. -/
def formatted (format : List Byte) (ap : Nat → VaArg) : List Byte :=
  match vaFormat format ap with
  | .ok writes => printed writes
  | .error _ => []

/-- The text that a call puts out. -/
def Call.text (o : Out) : Call → List Byte
  | .print args _ => args.flatMap Shown.text
  | .write arg => arg.text
  | .printf format args => (nlPrintf (cstr format) args).toOption.getD []
  | .question r => cstr r.tostr
  | .warn fname linenum warnformat format ap =>
      if o.warnings + 1 > o.maxwarnings then []
      else
        formatted (warnHead warnformat) (warnArgs fname linenum) ++ formatted (cstr format) ap ++
          formatted (warnTail warnformat) fun _ => {}
  | .flush => []

/-- Calls, one after the other. -/
def run : List Call → Out → Except Fault Out
  | [], o => .ok o
  | call :: calls, o => do
      let o ← call.run o
      run calls o

/-- The texts of calls. -/
def texts : List Call → Out → List Byte
  | [], _ => []
  | call :: calls, o =>
      call.text o ++ match call.run o with
        | .ok o => texts calls o
        | .error _ => []

/-! ### What fits -/

/-- The writes of `nc_vsnprintf` fit: no conversion is cut, and the end is not behind the room. -/
def FitsConvs (room : Nat) : List Conv → Nat → Prop
  | [], len => len ≤ room
  | .text s :: format, len => FitsConvs room format (len + s.length)
  | .arg p :: format, len => (p ≠ [] → len + p.length < room) ∧ FitsConvs room format (len + p.length)

/-- A format that is whole, and whose text fits behind the first `len` bytes of the buffer. -/
def FitsFormat (len : Nat) (format : List Byte) (ap : Nat → VaArg) : Prop :=
  ∃ writes, vaFormat format ap = .ok writes ∧ FitsConvs (outbufmax - len) writes 0

/-- How much of the buffer is filled when `nc_printf` writes. -/
def Out.low (o : Out) : Nat := if o.outbuflen > outbuflowat then 0 else o.outbuflen

/-- A call whose texts fit. -/
def Call.Fits (o : Out) : Call → Prop
  | .print _ _ | .write _ | .flush => True
  | .printf format _ => ¬ EndsInside (cstr format)
  | .question r => cstr r.tostr ≠ [] → (cstr r.tostr).length < outbufmax - o.low
  | .warn fname linenum warnformat format ap =>
      o.warnings + 1 ≤ o.maxwarnings →
        FitsFormat o.low (warnHead warnformat) (warnArgs fname linenum) ∧
          FitsFormat (o.low + (formatted (warnHead warnformat) (warnArgs fname linenum)).length) (cstr format) ap

/-- Calls whose texts fit. -/
def Fits : List Call → Out → Prop
  | [], _ => True
  | call :: calls, o => call.Fits o ∧ ∀ o', call.run o = .ok o' → Fits calls o'

section

variable {o o' : Out} {mem : List Byte}

/-- The array has its size, the counter is inside, and no `write` is short. -/
structure Out.Sound (o : Out) : Prop where
  size : o.outbuffer.length = outbufmax + 1
  room : o.outbuflen ≤ outbufmax
  takes : ∀ n ∈ o.takes, outbufmax ≤ n

/-- What was flushed, and then what is in the buffer. -/
def Out.bytes (o : Out) : List Byte := o.flushed ++ o.outbuffer.take o.outbuflen

theorem put_run (mem : List Byte) (i : Nat) (xs ys : List Byte) (h : i + (xs ++ ys).length ≤ mem.length) :
    ∃ mem', put mem i (xs ++ ys) = .ok mem' ∧ mem'.length = mem.length ∧
      mem'.take (i + xs.length) = mem.take i ++ xs := by
  have hwrite := Memory.write_of_le h
  refine ⟨_, ?_, Memory.write_length hwrite, Memory.take_write hwrite⟩
  unfold put
  rw [hwrite]

theorem put_behind {i : Nat} {xs : List Byte} (h : mem.length < i + xs.length) : put mem i xs = .error .outOfBounds := by
  unfold put Memory.write
  rw [if_neg (Nat.not_le_of_lt h)]

theorem nlFlush_run (h : o.Sound) :
    ∃ o', nlFlush o = .ok o' ∧ o'.Sound ∧ o'.bytes = o.bytes ∧ o'.outbuflen = 0 ∧
      o'.warnings = o.warnings ∧ o'.maxwarnings = o.maxwarnings := by
  unfold nlFlush
  split
  · rename_i hzero
    exact ⟨o, rfl, h, rfl, hzero, rfl, rfl⟩
  · split
    · refine ⟨_, rfl, ⟨h.size, Nat.zero_le _, h.takes⟩, ?_, rfl, rfl, rfl⟩
      exact List.append_nil _
    · obtain ⟨mem, hput, hlen, htake⟩ := put_run o.outbuffer o.outbuflen [] [0]
        (by
          have hroom := h.room
          rw [h.size]
          simpa using hroom)
      rw [List.nil_append] at hput
      rw [hput, ok_bind]
      rw [List.length_nil, Nat.add_zero, List.append_nil] at htake
      have hall : (mem.take o.outbuflen).take (o.takes.head?.getD o.outbuflen) = o.outbuffer.take o.outbuflen := by
        rw [htake]
        refine List.take_of_length_le ((List.length_take_le _ _).trans ?_)
        cases htakes : o.takes with
        | nil => exact Nat.le_refl _
        | cons n ns =>
            have hn := h.takes n (by rw [htakes]; exact List.mem_cons_self)
            exact h.room.trans hn
      refine ⟨_, rfl, ⟨hlen.trans h.size, Nat.zero_le _, fun n hn => h.takes n (List.mem_of_mem_tail hn)⟩, ?_, rfl, rfl,
        rfl⟩
      show (o.flushed ++ _) ++ [] = _
      rw [hall, List.append_nil]
      rfl

theorem flushLow_run (h : o.Sound) :
    ∃ o', flushLow o = .ok o' ∧ o'.Sound ∧ o'.bytes = o.bytes ∧ o'.outbuflen = o.low ∧
      o'.warnings = o.warnings ∧ o'.maxwarnings = o.maxwarnings := by
  unfold flushLow Out.low
  split
  · exact nlFlush_run h
  · exact ⟨o, rfl, h, rfl, rfl, rfl, rfl⟩

theorem low_le (o : Out) : o.low ≤ outbuflowat := by
  unfold Out.low
  split
  · exact Nat.zero_le _
  · omega

theorem writestr_run (h : o.Sound) (text : List Byte) :
    ∃ o', writestr text o = .ok o' ∧ o'.Sound ∧ o'.bytes = o.bytes ++ text := by
  induction text generalizing o with
  | nil =>
      obtain ⟨mem, hput, hlen, htake⟩ := put_run o.outbuffer o.outbuflen [] [0]
        (by
          have hroom := h.room
          rw [h.size]
          simpa using hroom)
      rw [List.nil_append] at hput
      rw [List.length_nil, Nat.add_zero, List.append_nil] at htake
      rw [writestr, hput, ok_bind]
      refine ⟨_, rfl, ⟨hlen.trans h.size, h.room, h.takes⟩, ?_⟩
      show o.flushed ++ mem.take o.outbuflen = _
      rw [htake, List.append_nil]
      rfl
  | cons c text ih =>
      obtain ⟨o₁, hflush, h₁, hbytes, hlow, -, -⟩ := flushLow_run h
      have hle := low_le o
      obtain ⟨mem, hput, hlen, htake⟩ := put_run o₁.outbuffer o₁.outbuflen [c] []
        (by
          rw [h₁.size, hlow]
          unfold outbufmax outbuflowat at *
          simp
          omega)
      rw [List.append_nil] at hput
      have hlen' : (o₁.outbuflen + 1) % 2 ^ 16 = o₁.outbuflen + 1 := by
        rw [hlow]
        unfold outbuflowat at hle
        omega
      rw [writestr, hflush, ok_bind, hput, ok_bind, hlen']
      have h₂ : Out.Sound { o₁ with outbuffer := mem, outbuflen := o₁.outbuflen + 1 } :=
        ⟨hlen.trans h₁.size, show o₁.outbuflen + 1 ≤ outbufmax by rw [hlow]; unfold outbufmax outbuflowat at *; omega,
          h₁.takes⟩
      obtain ⟨o₃, hrun, h₃, hbytes₃⟩ := ih h₂
      refine ⟨o₃, hrun, h₃, ?_⟩
      rw [hbytes₃]
      have hstep : Out.bytes { o₁ with outbuffer := mem, outbuflen := o₁.outbuflen + 1 } = o₁.bytes ++ [c] := by
        show o₁.flushed ++ mem.take (o₁.outbuflen + 1) = _
        rw [List.length_singleton] at htake
        rw [htake, ← List.append_assoc]
        rfl
      rw [hstep, hbytes, List.append_assoc, List.singleton_append]

theorem fits_le {room len : Nat} {writes : List Conv} (h : FitsConvs room writes len) :
    len + (printed writes).length ≤ room := by
  induction writes generalizing len with
  | nil => exact h
  | cons c writes ih =>
      rw [printed_cons, List.length_append, ← Nat.add_assoc]
      cases c with
      | text s => exact ih h
      | arg p => exact ih h.2

/-- What fits is written, and counted. -/
theorem putConvs_run (mem : List Byte) (base : Nat) {room len : Nat} {writes : List Conv} (hmem : base + room + 1 ≤ mem.length)
    (h : FitsConvs room writes len) :
    ∃ mem', putConvs room base writes len mem = .ok (len + (printed writes).length, mem') ∧
      mem'.length = mem.length ∧
      mem'.take (base + len + (printed writes).length) = mem.take (base + len) ++ printed writes := by
  induction writes generalizing len mem with
  | nil =>
      obtain ⟨mem', hput, hlen, htake⟩ := put_run mem (base + len) [] [0]
        (by
          have hle : len ≤ room := h
          simp
          omega)
      rw [List.nil_append] at hput
      exact ⟨mem', by rw [putConvs, hput, ok_bind]; rfl, hlen, htake⟩
  | cons c writes ih =>
      have hend := fits_le h
      rw [printed_cons, List.length_append] at hend
      -- the bytes of `c` are written, and perhaps some behind them
      have hstep : ∀ ys mem₁, put mem (base + len) (c.printed ++ ys) = .ok mem₁ →
          (c.printed ++ ys).length + (base + len) ≤ mem.length →
          FitsConvs room writes (len + c.printed.length) →
          ∃ mem', putConvs room base writes (len + c.printed.length) mem₁ =
              .ok (len + (printed (c :: writes)).length, mem') ∧ mem'.length = mem.length ∧
            mem'.take (base + len + (printed (c :: writes)).length) = mem.take (base + len) ++ printed (c :: writes) := by
        intro ys mem₁ hput₁ hroom hfits
        obtain ⟨mem₂, hput₂, hlen₂, htake₂⟩ := put_run mem (base + len) c.printed ys
          (by omega)
        obtain rfl : mem₂ = mem₁ := Except.ok.inj (hput₂.symm.trans hput₁)
        obtain ⟨mem', hrun, hlen', htake'⟩ := ih mem₂ (by rw [hlen₂]; exact hmem) hfits
        refine ⟨mem', ?_, hlen'.trans hlen₂, ?_⟩
        · rw [hrun, printed_cons, List.length_append, Nat.add_assoc]
        · rw [← Nat.add_assoc, htake₂] at htake'
          rw [printed_cons, List.length_append, ← Nat.add_assoc, ← List.append_assoc]
          exact htake'
      cases c with
      | text s =>
          have hroom : (s ++ []).length + (base + len) ≤ mem.length := by
            simp only [Conv.printed] at hend
            simp
            omega
          obtain ⟨mem₁, hput₁, -, -⟩ := put_run mem (base + len) s [] (by omega)
          obtain ⟨mem', hrun, hrest⟩ := hstep [] mem₁ hput₁ hroom h
          refine ⟨mem', ?_, hrest⟩
          rw [List.append_nil] at hput₁
          rw [putConvs, hput₁, ok_bind]
          exact hrun
      | arg p =>
          obtain ⟨hp, hfits⟩ := h
          by_cases hn : (0 : Int) < (room : Int) - len
          · have hcut : p.take ((room : Int) - len - 1).toNat = p := by
              refine List.take_of_length_le ?_
              by_cases hnil : p = []
              · rw [hnil]
                exact Nat.zero_le _
              · have hlt := hp hnil
                omega
            have hroom : (p ++ [0]).length + (base + len) ≤ mem.length := by
              have hlt : len + p.length < room := by
                by_cases hnil : p = []
                · rw [hnil, List.length_nil]
                  omega
                · exact hp hnil
              simp
              omega
            obtain ⟨mem₁, hput₁, -, -⟩ := put_run mem (base + len) p [0] (by omega)
            obtain ⟨mem', hrun, hrest⟩ := hstep [0] mem₁ hput₁ hroom hfits
            refine ⟨mem', ?_, hrest⟩
            rw [putConvs]
            dsimp only
            rw [if_pos hn, hcut, hput₁, ok_bind]
            exact hrun
          · have hnil : p = [] := by
              by_contra hne
              have hlt := hp hne
              omega
            subst hnil
            obtain ⟨mem', hrun, hlen', htake'⟩ := ih mem hmem hfits
            refine ⟨mem', ?_, hlen', htake'⟩
            rw [putConvs]
            dsimp only
            rw [if_neg hn, pure_eq_ok, ok_bind]
            exact hrun

/-- A text that fits is appended. -/
theorem appendFormat_run {format : List Byte} {ap : Nat → VaArg} (h : o.Sound)
    (hfits : FitsFormat o.outbuflen format ap) :
    ∃ o', appendFormat format ap o = .ok o' ∧ o'.Sound ∧ o'.bytes = o.bytes ++ formatted format ap ∧
      o'.outbuflen = o.outbuflen + (formatted format ap).length ∧
      o'.warnings = o.warnings ∧ o'.maxwarnings = o.maxwarnings := by
  obtain ⟨writes, hwrites, hconvs⟩ := hfits
  have hroom := h.room
  have hcast : (outbufmax : Int) - o.outbuflen = ((outbufmax - o.outbuflen : Nat) : Int) := by omega
  obtain ⟨mem, hrun, hlen, htake⟩ := putConvs_run o.outbuffer o.outbuflen
    (by rw [h.size]; omega) hconvs
  have hend := fits_le hconvs
  have htext : formatted format ap = printed writes := by
    rw [formatted, hwrites]
  rw [Nat.zero_add] at hrun hend
  rw [Nat.add_zero] at htake
  have hmod : (o.outbuflen + (printed writes).length) % 2 ^ 16 = o.outbuflen + (printed writes).length := by
    unfold outbufmax at hend hroom
    omega
  unfold appendFormat
  rw [hwrites, ok_bind, hcast, hrun, ok_bind]
  dsimp only
  rw [hmod, htext]
  refine ⟨_, rfl, ⟨hlen.trans h.size, show o.outbuflen + (printed writes).length ≤ outbufmax by omega, h.takes⟩, ?_, rfl,
    rfl, rfl⟩
  show o.flushed ++ mem.take (o.outbuflen + (printed writes).length) = _
  rw [htake, ← List.append_assoc]
  rfl

theorem ncPrintf_run {format : List Byte} {ap : Nat → VaArg} (h : o.Sound) (hfits : FitsFormat o.low format ap) :
    ∃ o', ncPrintf format ap o = .ok o' ∧ o'.Sound ∧ o'.bytes = o.bytes ++ formatted format ap ∧
      o'.outbuflen = o.low + (formatted format ap).length := by
  obtain ⟨o₁, hflush, h₁, hbytes₁, hlow, -, -⟩ := flushLow_run h
  rw [← hlow] at hfits
  obtain ⟨o₂, hrun, h₂, hbytes₂, hlen, -, -⟩ := appendFormat_run h₁ hfits
  refine ⟨o₂, ?_, h₂, by rw [hbytes₂, hbytes₁], by rw [hlen, hlow]⟩
  unfold ncPrintf
  rw [hflush, ok_bind]
  exact hrun

/-! ### A call -/

theorem writeAll_run (h : o.Sound) (args : List Shown) :
    ∃ o', writeAll args o = .ok o' ∧ o'.Sound ∧ o'.bytes = o.bytes ++ args.flatMap Shown.text := by
  induction args generalizing o with
  | nil => exact ⟨o, rfl, h, (List.append_nil _).symm⟩
  | cons arg args ih =>
      obtain ⟨o₁, hrun₁, h₁, hbytes₁⟩ := writestr_run h arg.text
      obtain ⟨o₂, hrun₂, h₂, hbytes₂⟩ := ih h₁
      refine ⟨o₂, ?_, h₂, ?_⟩
      · rw [writeAll, hrun₁, ok_bind]
        exact hrun₂
      · rw [hbytes₂, hbytes₁, List.flatMap_cons, List.append_assoc]

/-- `"%s"` writes one text. -/
theorem vaFormat_str (tostr : List Byte) : vaFormat (bytes "%s") (fun _ => { str := some tostr }) = .ok [.arg (cstr tostr)] :=
  rfl

theorem warnTail_fits (warnformat : Byte) {len : Nat} (h : len ≤ outbuflowat) :
    FitsFormat len (warnTail warnformat) fun _ => {} := by
  have hroom : 32 ≤ outbufmax - len := by
    unfold outbufmax outbuflowat at *
    omega
  unfold warnTail
  split
  · refine ⟨_, rfl, ?_⟩
    show _ ≤ _
    exact Nat.le_trans (by decide) hroom
  · split
    · refine ⟨_, rfl, ?_⟩
      show _ ≤ _
      exact Nat.le_trans (by decide) hroom
    · refine ⟨_, rfl, ?_⟩
      show _ ≤ _
      exact Nat.le_trans (by decide) hroom

theorem warn_run {fname : List Byte} {linenum : Int} {warnformat : Byte} {format : List Byte} {ap : Nat → VaArg}
    (h : o.Sound) (hhead : FitsFormat o.low (warnHead warnformat) (warnArgs fname linenum))
    (hformat : FitsFormat (o.low + (formatted (warnHead warnformat) (warnArgs fname linenum)).length) (cstr format) ap) :
    ∃ o', (do
        let o ← flushLow o
        let o ← ncPrintf (warnHead warnformat) (warnArgs fname linenum) o
        let o ← appendFormat (cstr format) ap o
        let o ← ncPrintf (warnTail warnformat) (fun _ => {}) o
        nlFlush o) = .ok o' ∧ o'.Sound ∧
      o'.bytes = o.bytes ++ (formatted (warnHead warnformat) (warnArgs fname linenum) ++ formatted (cstr format) ap ++
        formatted (warnTail warnformat) fun _ => {}) := by
  obtain ⟨o₁, hflush, h₁, hbytes₁, hlow, -, -⟩ := flushLow_run h
  have hlow₁ : o₁.low = o.low := by
    have hle := low_le o
    rw [Out.low, if_neg (by rw [hlow]; omega), hlow]
  obtain ⟨o₂, hrun₂, h₂, hbytes₂, hlen₂⟩ := ncPrintf_run h₁ (hlow₁.symm ▸ hhead)
  obtain ⟨o₃, hrun₃, h₃, hbytes₃, -, -, -⟩ := appendFormat_run h₂ (by rw [hlen₂, hlow₁]; exact hformat)
  obtain ⟨o₄, hrun₄, h₄, hbytes₄, -⟩ := ncPrintf_run h₃ (warnTail_fits warnformat (low_le o₃))
  obtain ⟨o₅, hrun₅, h₅, hbytes₅, -, -, -⟩ := nlFlush_run h₄
  refine ⟨o₅, ?_, h₅, ?_⟩
  · rw [hflush, ok_bind, hrun₂, ok_bind, hrun₃, ok_bind, hrun₄, ok_bind, hrun₅]
  · simp only [hbytes₅, hbytes₄, hbytes₃, hbytes₂, hbytes₁, List.append_assoc]

/-- A call whose texts fit puts them out. -/
theorem Call.run_fits (h : o.Sound) {call : Call} (hfits : call.Fits o) :
    ∃ o', call.run o = .ok o' ∧ o'.Sound ∧ o'.bytes = o.bytes ++ call.text o := by
  cases call with
  | print args debug =>
      obtain ⟨o₁, hrun₁, h₁, hbytes₁⟩ := writeAll_run h args
      obtain ⟨o₂, hrun₂, h₂, hbytes₂, -, -, -⟩ := nlFlush_run h₁
      rw [Call.run, hrun₁, ok_bind]
      cases debug with
      | false => exact ⟨o₁, rfl, h₁, hbytes₁⟩
      | true => exact ⟨o₂, hrun₂, h₂, hbytes₂.trans hbytes₁⟩
  | write arg => exact writestr_run h arg.text
  | printf format args =>
      have hwhole : ∃ str, nlPrintf (cstr format) args = .ok str :=
        nlPrintf_ok (zero_notMem_cstr format) args hfits
      obtain ⟨str, hstr⟩ := hwhole
      rw [Call.run, Call.text, hstr, ok_bind]
      exact writestr_run h str
  | question r =>
      have hconvs : FitsFormat o.low (bytes "%s") fun _ => { str := some r.tostr } := by
        refine ⟨_, vaFormat_str r.tostr, ?_, ?_⟩
        · intro hne
          rw [Nat.zero_add]
          exact hfits hne
        · show 0 + (cstr r.tostr).length ≤ outbufmax - o.low
          rw [Nat.zero_add]
          by_cases hne : cstr r.tostr = []
          · rw [hne]
            exact Nat.zero_le _
          · exact Nat.le_of_lt (hfits hne)
      obtain ⟨o', hrun, h', hbytes, -⟩ := ncPrintf_run h hconvs
      refine ⟨o', hrun, h', hbytes.trans ?_⟩
      rw [formatted, vaFormat_str]
      exact congrArg (o.bytes ++ ·) (List.append_nil _)
  | warn fname linenum warnformat format ap =>
      have hcount : Out.Sound { o with warnings := o.warnings + 1 } := ⟨h.size, h.room, h.takes⟩
      rw [Call.run, Call.text]
      dsimp only
      by_cases hmany : o.warnings + 1 > o.maxwarnings
      · rw [if_pos hmany, if_pos hmany]
        obtain ⟨o', hrun, h', hbytes, -, -, -⟩ := nlFlush_run hcount
        exact ⟨o', hrun, h', hbytes.trans (List.append_nil _).symm⟩
      · rw [if_neg hmany, if_neg hmany]
        obtain ⟨hhead, hformat⟩ := hfits (by omega)
        exact warn_run hcount hhead hformat
  | flush =>
      obtain ⟨o', hrun, h', hbytes, -, -, -⟩ := nlFlush_run h
      exact ⟨o', hrun, h', hbytes.trans (List.append_nil _).symm⟩

/-! ### Runs -/

/-- An interpreter that was just made. -/
def Out.fresh (hooked : Bool) (takes : List Nat) (maxwarnings : Int) : Out :=
  { outbuffer := List.replicate (outbufmax + 1) 0, hooked, takes, maxwarnings }

theorem run_fits (h : o.Sound) {calls : List Call} (hfits : Fits calls o) :
    ∃ o', run calls o = .ok o' ∧ o'.Sound ∧ o'.bytes = o.bytes ++ texts calls o := by
  induction calls generalizing o with
  | nil => exact ⟨o, rfl, h, (List.append_nil _).symm⟩
  | cons call calls ih =>
      obtain ⟨o₁, hrun₁, h₁, hbytes₁⟩ := Call.run_fits h hfits.1
      obtain ⟨o₂, hrun₂, h₂, hbytes₂⟩ := ih h₁ (hfits.2 o₁ hrun₁)
      refine ⟨o₂, ?_, h₂, ?_⟩
      · rw [run, hrun₁, ok_bind]
        exact hrun₂
      · rw [hbytes₂, hbytes₁, texts, hrun₁, List.append_assoc]

/-- The buffer is kept by calls: they write inside of the array, the counter stays inside, and what was flushed and what
is in the buffer are the texts in their order. -/
def Keeps (calls : List Call) (o : Out) : Prop :=
  ∃ o', run calls o = .ok o' ∧ o'.outbuflen ≤ outbufmax ∧ o'.outbuffer.length = outbufmax + 1 ∧
    o'.flushed ++ o'.outbuffer.take o'.outbuflen = texts calls o

/-- Calls whose texts fit keep the buffer, where each `write` takes all. -/
theorem bytes_kept {calls : List Call} {hooked : Bool} {takes : List Nat} {maxwarnings : Int}
    (htakes : ∀ n ∈ takes, outbufmax ≤ n) (hfits : Fits calls (.fresh hooked takes maxwarnings)) :
    Keeps calls (.fresh hooked takes maxwarnings) := by
  have hsound : (Out.fresh hooked takes maxwarnings).Sound := ⟨List.length_replicate, Nat.zero_le _, htakes⟩
  obtain ⟨o', hrun, h', hbytes⟩ := run_fits hsound hfits
  have hstart : (Out.fresh hooked takes maxwarnings).bytes = [] := by
    rw [Out.bytes, Out.fresh, List.take_zero, List.append_nil]
  rw [hstart, List.nil_append] at hbytes
  exact ⟨o', hrun, h'.room, h'.size, hbytes⟩

theorem bytes_kept_question : Keeps [.question (.other (bytes "7"))] (.fresh false [] 500) :=
  bytes_kept (by simp) ⟨fun _ => by decide, fun _ _ => trivial⟩

/-- The NUL behind a text that is longer than the room is written behind the array. -/
theorem question_long {r : Shown} (h : o.Sound) (hlong : outbufmax - o.low < (cstr r.tostr).length) :
    (Call.question r).run o = .error .outOfBounds := by
  obtain ⟨o₁, hflush, h₁, -, hlow, -, -⟩ := flushLow_run h
  have hle := low_le o
  have hn : (0 : Int) < (outbufmax : Int) - o₁.outbuflen - (0 : Nat) := by
    rw [hlow]
    unfold outbufmax outbuflowat at *
    omega
  have hcut : ((cstr r.tostr).take ((outbufmax : Int) - o₁.outbuflen - (0 : Nat) - 1).toNat).length + 1 ≤
      outbufmax - o₁.outbuflen := by
    rw [List.length_take]
    unfold outbufmax at *
    omega
  obtain ⟨mem, hput, hlen, -⟩ := put_run o₁.outbuffer (o₁.outbuflen + 0)
    ((cstr r.tostr).take ((outbufmax : Int) - o₁.outbuflen - (0 : Nat) - 1).toNat) [0]
    (by
      have hroom := h₁.room
      rw [h₁.size, List.length_append, List.length_singleton]
      omega)
  have hend : put mem (o₁.outbuflen + (0 + (cstr r.tostr).length)) [0] = .error .outOfBounds := by
    refine put_behind ?_
    rw [hlen, h₁.size, hlow, List.length_singleton]
    omega
  rw [Call.run, ncPrintf, hflush, ok_bind, appendFormat, vaFormat_str, ok_bind, putConvs]
  dsimp only
  rw [if_pos hn, hput, ok_bind, putConvs, hend]
  rfl

/-- `?` of a string of 5000 bytes. -/
theorem not_bytes_kept : ¬ Keeps [.question (.str (List.replicate 5000 (ch 'a')))] (.fresh false [] 500) := by
  rintro ⟨o', hrun, -⟩
  have hsound : (Out.fresh false [] 500).Sound := ⟨List.length_replicate, Nat.zero_le _, by simp [Out.fresh]⟩
  have htext : (cstr (List.replicate 5000 (ch 'a'))).length = 5000 := by
    rw [cstr_eq fun h => absurd (List.eq_of_mem_replicate h) (by decide), List.length_replicate]
  have herror := question_long (r := .str (List.replicate 5000 (ch 'a'))) hsound
    (show outbufmax - 0 < (cstr (List.replicate 5000 (ch 'a'))).length by rw [htext]; decide)
  rw [run, herror] at hrun
  cases hrun

end

end NullG.Nsp.OutBuffer
