/-
The stream before the fix-up: `emit_spec` says that it holds the header, the tokens of the
table in order, each `function` with its file's name, and four NULs, unless the table ends
in `function` or the memory runs out.

`Writes x d bs` is what one writing step does to the destination `d`; `Emits` is what the
loop over the token table does, and `emitLoop_emits` its induction.
-/

import NullG.Nsp.ScannerTokens

namespace NullG.Nsp

open NullG.Lib

/-! ### Writing the tokens -/

/-- The token table ends in the keyword `function`. -/
def EndsInFunction (ts : List Tok) : Prop := ts.getLast?.map Tok.opByte = some opKfunc

instance (ts : List Tok) : Decidable (EndsInFunction ts) := inferInstanceAs (Decidable (_ = _))

/-- The tokens of the table with the file's name behind each `function` and its name;
`owed` tells that a `function` stands before them. -/
def withFiles (srcfile : Option (List Byte)) : Bool → List Tok → List Tok
  | _, [] => []
  | true, t :: ts =>
      if t.opByte = opLabel then t :: fileLabel srcfile :: withFiles srcfile false ts
      else fileLabel srcfile :: t :: withFiles srcfile (t.opByte == opKfunc) ts
  | false, t :: ts => t :: withFiles srcfile (t.opByte == opKfunc) ts

/-- The tokens that are written for a token table, the first line marker included. -/
def emitted (srcfile : Option (List Byte)) (ts : List Tok) : List Tok :=
  .linenum 1 :: withFiles srcfile false ts

theorem mem_withFiles {srcfile : Option (List Byte)} {owed : Bool} {ts : List Tok} {t : Tok}
    (h : t ∈ withFiles srcfile owed ts) : t = fileLabel srcfile ∨ t ∈ ts := by
  induction ts generalizing owed with
  | nil => cases owed <;> cases h
  | cons u ts ih =>
      cases owed with
      | false =>
          rcases List.mem_cons.mp h with rfl | h
          · exact .inr List.mem_cons_self
          · exact (ih h).imp_right (List.mem_cons_of_mem _)
      | true =>
          simp only [withFiles] at h
          split at h
          · rcases List.mem_cons.mp h with rfl | h
            · exact .inr List.mem_cons_self
            · rcases List.mem_cons.mp h with rfl | h
              · exact .inl rfl
              · exact (ih h).imp_right (List.mem_cons_of_mem _)
          · rcases List.mem_cons.mp h with rfl | h
            · exact .inl rfl
            · rcases List.mem_cons.mp h with rfl | h
              · exact .inr List.mem_cons_self
              · exact (ih h).imp_right (List.mem_cons_of_mem _)

theorem mem_withFiles_of_mem {srcfile : Option (List Byte)} {owed : Bool} {ts : List Tok} {t : Tok}
    (h : t ∈ ts) : t ∈ withFiles srcfile owed ts := by
  induction ts generalizing owed with
  | nil => cases h
  | cons u ts ih =>
      cases owed with
      | false =>
          rcases List.mem_cons.mp h with rfl | h
          · exact List.mem_cons_self
          · exact List.mem_cons_of_mem _ (ih h)
      | true =>
          simp only [withFiles]
          split
          · rcases List.mem_cons.mp h with rfl | h
            · exact List.mem_cons_self
            · exact List.mem_cons_of_mem _ (List.mem_cons_of_mem _ (ih h))
          · rcases List.mem_cons.mp h with rfl | h
            · exact List.mem_cons_of_mem _ List.mem_cons_self
            · exact List.mem_cons_of_mem _ (List.mem_cons_of_mem _ (ih h))

/-- The buffer holds what was written, and its size is an `int`. -/
structure Dest.Fits (d : Dest) : Prop where
  written : d.destbuf.length ≤ d.destmax
  int : d.destmax < 2 ^ 31

/-- The destination with more bytes written, in a buffer of `m` bytes. -/
def Dest.grown (d : Dest) (bs : List Byte) (m : Nat) : Dest :=
  { d with destbuf := d.destbuf ++ bs, destmax := m }

/-- What a writing step does: it runs out of memory, or the bytes are in the buffer. -/
def Writes (x : Except Fault Dest) (d : Dest) (bs : List Byte) : Prop :=
  x = .error .noMemory ∨ ∃ m, x = .ok (d.grown bs m) ∧ (d.grown bs m).Fits

theorem Dest.put_writes {d : Dest} (h : d.Fits) (bs : List Byte) : Writes (d.put bs) d bs := by
  obtain ⟨hw, hi⟩ := h
  unfold Dest.put Dest.testgrow
  split
  · split
    · exact .inl rfl
    · refine .inr ⟨d.destmax + bs.length + 1024, rfl, ?_, ?_⟩
      · simp only [Dest.grown, List.length_append]
        omega
      · simp only [Dest.grown]
        omega
  · refine .inr ⟨d.destmax, rfl, ?_, hi⟩
    simp only [Dest.grown, List.length_append]
    omega

theorem Writes.bind {d : Dest} {x : Except Fault Dest} {bs cs : List Byte}
    {f : Dest → Except Fault Dest} (hx : Writes x d bs)
    (hf : ∀ m, (d.grown bs m).Fits → Writes (f (d.grown bs m)) (d.grown bs m) cs) :
    Writes (x >>= f) d (bs ++ cs) := by
  rcases hx with rfl | ⟨m, rfl, hfit⟩
  · exact .inl rfl
  · rw [ok_bind]
    rcases hf m hfit with h | ⟨m', h, hfit'⟩
    · exact .inl h
    · have heq : (d.grown bs m).grown cs m' = d.grown (bs ++ cs) m' := by
        simp only [Dest.grown, List.append_assoc]
      rw [heq] at h hfit'
      exact .inr ⟨m', h, hfit'⟩

theorem emitOp_eq {N : Scanner} {op : Byte} {text : List Byte} (hv : (Tok.op op text).Valid)
    (d : Dest) : emitOp N op text d = d.put (encTok (.op op text)) := by
  refine if_pos ?_
  cases hv with
  | label => simp
  | num => simp
  | str text hop => rcases hop with rfl | rfl <;> simp
  | sym text hop =>
      simp only [Bool.or_eq_true] at hop
      rcases hop with (hop | hop) | hop <;> simp only [hop, or_true, true_or]

theorem Tok.Valid.ne_undefined {op : Byte} {text : List Byte} (hv : (Tok.op op text).Valid) :
    op ≠ opUndefined := by
  cases hv with
  | label => decide
  | num => decide
  | str text hop => rcases hop with rfl | rfl <;> decide
  | sym text hop =>
      rintro rfl
      exact absurd hop (by decide)

/-- What the loop does with the tokens `ts`, when `pre` is written before them: a `function`
at their end is followed by a NULL, and otherwise they are written with the file names. -/
def Emits (srcfile : Option (List Byte)) (x : Except Fault Dest) (d : Dest) (pre : List Byte)
    (ts : List Tok) : Prop :=
  if EndsInFunction ts then x = .error .noMemory ∨ x = .error .nullPointer
  else Writes x d (pre ++ (withFiles srcfile false ts).flatMap encTok)

section Emits

variable {srcfile : Option (List Byte)} {x : Except Fault Dest} {d : Dest} {bs cs : List Byte}
  {t u : Tok} {ts : List Tok}

theorem Emits.bind {f : Dest → Except Fault Dest} (hx : Writes x d bs)
    (hf : ∀ m, (d.grown bs m).Fits → Emits srcfile (f (d.grown bs m)) (d.grown bs m) cs ts) :
    Emits srcfile (x >>= f) d (bs ++ cs) ts := by
  unfold Emits at *
  split
  · rename_i hend
    rcases hx with rfl | ⟨m, rfl, hfit⟩
    · exact .inl rfl
    · have := hf m hfit
      rw [if_pos hend] at this
      exact this
  · rename_i hend
    rw [List.append_assoc]
    refine hx.bind fun m hfit => ?_
    have := hf m hfit
    rw [if_neg hend] at this
    exact this

theorem Emits.congr {us : List Tok} (hend : EndsInFunction us ↔ EndsInFunction ts)
    (heq : cs ++ (withFiles srcfile false us).flatMap encTok =
      bs ++ (withFiles srcfile false ts).flatMap encTok)
    (h : Emits srcfile x d bs ts) : Emits srcfile x d cs us := by
  simp only [Emits, hend, heq]
  exact h

theorem endsInFunction_cons : EndsInFunction (t :: u :: ts) ↔ EndsInFunction (u :: ts) := by
  simp only [EndsInFunction, List.getLast?_cons_cons]

theorem endsInFunction_cons_of_ne (ht : t.opByte ≠ opKfunc) :
    EndsInFunction (t :: ts) ↔ EndsInFunction ts := by
  cases ts with
  | nil => simpa [EndsInFunction] using ht
  | cons u ts => exact endsInFunction_cons

/-- A token other than `function` is written as it is. -/
theorem Emits.cons (ht : t.opByte ≠ opKfunc) (h : Emits srcfile x d (encTok t ++ []) ts) :
    Emits srcfile x d [] (t :: ts) := by
  have hfiles : withFiles srcfile false (t :: ts) = t :: withFiles srcfile false ts := by
    rw [withFiles, beq_eq_false_iff_ne.mpr ht]
  refine h.congr (endsInFunction_cons_of_ne ht) ?_
  rw [hfiles, List.flatMap_cons, List.append_nil, List.nil_append]

/-- A `function` with a name: the name and the file's follow it. -/
theorem Emits.func_name (ht : t.opByte = opKfunc) (hu : u.opByte = opLabel)
    (h : Emits srcfile x d (encTok t ++ (encTok u ++ (encTok (fileLabel srcfile) ++ []))) ts) :
    Emits srcfile x d [] (t :: u :: ts) := by
  have hne : u.opByte ≠ opKfunc := by
    rw [hu]
    decide
  have hfiles : withFiles srcfile false (t :: u :: ts) =
      t :: u :: fileLabel srcfile :: withFiles srcfile false ts := by
    rw [withFiles, beq_iff_eq.mpr ht, withFiles, if_pos hu]
  refine h.congr (endsInFunction_cons.trans (endsInFunction_cons_of_ne hne)) ?_
  simp only [hfiles, List.flatMap_cons, List.append_assoc, List.nil_append]

/-- A `function` without a name: the file's follows it. -/
theorem Emits.func (ht : t.opByte = opKfunc) (hu : u.opByte ≠ opLabel)
    (h : Emits srcfile x d (encTok t ++ (encTok (fileLabel srcfile) ++ [])) (u :: ts)) :
    Emits srcfile x d [] (t :: u :: ts) := by
  have hfiles : withFiles srcfile false (t :: u :: ts) =
      t :: fileLabel srcfile :: withFiles srcfile false (u :: ts) := by
    rw [withFiles, beq_iff_eq.mpr ht, withFiles, if_neg hu, withFiles]
  refine h.congr endsInFunction_cons ?_
  simp only [hfiles, List.flatMap_cons, List.append_assoc, List.nil_append]

theorem emitFunc_name (hu : u.opByte = opLabel) :
    emitFunc srcfile (u :: ts) d = (d.put (encTok u) >>= fun d =>
      d.put (encTok (fileLabel srcfile)) >>= fun d => .ok (true, d)) := by
  cases u with
  | linenum => exact absurd hu (by decide : opLinenum ≠ opLabel)
  | op op name =>
      rw [Tok.opByte] at hu
      subst hu
      rfl

theorem emitFunc_noname (hu : u.opByte ≠ opLabel) :
    emitFunc srcfile (u :: ts) d =
      (d.put (encTok (fileLabel srcfile)) >>= fun d => .ok (false, d)) := by
  cases u with
  | linenum => rfl
  | op op name => exact if_neg hu

/-- The loop over the token table; when `taken`, its first entry is passed over. -/
theorem emitLoop_emits {N : Scanner} (hv : ∀ t ∈ ts, t.Valid) (taken : Bool) (hd : d.Fits) :
    Emits srcfile (emitLoop N srcfile taken ts d) d [] (if taken then ts.tail else ts) := by
  induction ts generalizing taken d with
  | nil =>
      have hnil : (if taken then ([] : List Tok).tail else []) = [] := by cases taken <;> rfl
      rw [hnil, Emits, if_neg (by decide : ¬ EndsInFunction [])]
      refine .inr ⟨d.destmax, ?_, ?_⟩
      · cases taken <;> simp [emitLoop, Dest.grown, withFiles]
      · simpa [Dest.grown, withFiles] using hd
  | cons t ts ih =>
      have hts : ∀ u ∈ ts, u.Valid := fun u hu => hv u (List.mem_cons_of_mem _ hu)
      cases taken with
      | true => exact ih hts false hd
      | false =>
          simp only [Bool.false_eq_true, if_false]
          cases t with
          | linenum n =>
              refine Emits.cons (by decide : opLinenum ≠ opKfunc) ?_
              exact Emits.bind (Dest.put_writes hd _) fun m hfit => ih hts false hfit
          | op op text =>
              have hop : (Tok.op op text).Valid := hv _ List.mem_cons_self
              simp only [emitLoop, if_neg hop.ne_undefined, emitOp_eq hop]
              by_cases hfunc : op = opKfunc
              · simp only [if_pos hfunc]
                cases ts with
                | nil =>
                    have hend : EndsInFunction [Tok.op op text] := congrArg some hfunc
                    rw [Emits, if_pos hend]
                    rcases Dest.put_writes hd (encTok (.op op text)) with h | ⟨m, h, -⟩
                    · exact .inl (by rw [h]; rfl)
                    · exact .inr (by rw [h]; rfl)
                | cons u ts =>
                    by_cases hu : u.opByte = opLabel
                    · refine Emits.func_name hfunc hu ?_
                      refine Emits.bind (Dest.put_writes hd _) fun m hfit => ?_
                      rw [emitFunc_name hu]
                      simp only [bind_assoc, ok_bind]
                      refine Emits.bind (Dest.put_writes hfit _) fun m' hfit' => ?_
                      refine Emits.bind (Dest.put_writes hfit' _) fun m'' hfit'' => ?_
                      exact ih hts true hfit''
                    · refine Emits.func hfunc hu ?_
                      refine Emits.bind (Dest.put_writes hd _) fun m hfit => ?_
                      rw [emitFunc_noname hu]
                      simp only [bind_assoc, ok_bind]
                      exact Emits.bind (Dest.put_writes hfit _) fun m' hfit' => ih hts false hfit'
              · simp only [if_neg hfunc]
                refine Emits.cons (t := .op op text) hfunc ?_
                exact Emits.bind (Dest.put_writes hd _) fun m hfit => ih hts false hfit

end Emits

/-- The header of a stream of `n` bytes. -/
def headerOf (n : Nat) : List Byte :=
  [0x0D, 0xAC, 0, 0, 0, 0, 0, 0] ++ (writei4 n ++ (writei4 20 ++ writei4 0))

/-- The four NULs behind the stream. -/
def trailer : List Byte := writei4 0

/-- What `n_decompose` has written before the fix-up. -/
theorem emit_spec (N : Scanner) (srcfile : Option (List Byte)) {s : Lex} (hs : s.Sound) :
    emit N srcfile s = .error .noMemory ∨
      if EndsInFunction s.code then emit N srcfile s = .error .nullPointer
      else ∃ m, emit N srcfile s = .ok ⟨s, headerOf (20 + size (emitted srcfile s.code)) ++
          ((emitted srcfile s.code).flatMap encTok ++ trailer), m⟩ ∧
        20 + size (emitted srcfile s.code) < 2 ^ 31 := by
  have start : Dest.Fits ⟨s, header, 1024⟩ :=
    ⟨(by decide : header.length ≤ 1024), (by decide : 1024 < 2 ^ 31)⟩
  have first : emit N srcfile s = ((Dest.put ⟨s, header, 1024⟩ (encTok (.linenum 1)) >>=
      emitLoop N srcfile false s.code) >>= fun d =>
        Dest.put { d with destbuf := setFilesize d.destbuf.length d.destbuf } trailer) := by
    simp only [bind_assoc]
    rfl
  have loop : Emits srcfile (Dest.put ⟨s, header, 1024⟩ (encTok (.linenum 1)) >>=
      emitLoop N srcfile false s.code) ⟨s, header, 1024⟩ (encTok (.linenum 1) ++ []) s.code :=
    Emits.bind (Dest.put_writes start _) fun m hfit => emitLoop_emits hs false hfit
  rw [first]
  unfold Emits at loop
  split at loop
  · rename_i hend
    rw [if_pos hend]
    rcases loop with h | h <;> rw [h]
    · exact .inl rfl
    · exact .inr rfl
  · rename_i hend
    rw [if_neg hend]
    rcases loop with h | ⟨m, h, hw, hi⟩
    · rw [h]
      exact .inl rfl
    · rw [h, ok_bind]
      have hbuf : (Dest.grown ⟨s, header, 1024⟩ (encTok (.linenum 1) ++ [] ++
          (withFiles srcfile false s.code).flatMap encTok) m).destbuf =
            header ++ (emitted srcfile s.code).flatMap encTok := rfl
      have hlen : (header ++ (emitted srcfile s.code).flatMap encTok).length =
          20 + size (emitted srcfile s.code) := by
        rw [List.length_append]
        rfl
      have hset : setFilesize (header ++ (emitted srcfile s.code).flatMap encTok).length
          (header ++ (emitted srcfile s.code).flatMap encTok) =
            headerOf (20 + size (emitted srcfile s.code)) ++ (emitted srcfile s.code).flatMap encTok := by
        rw [hlen]
        rfl
      rw [hbuf] at hw ⊢
      rw [hset]
      rw [hlen] at hw
      have hfit : Dest.Fits ⟨s, headerOf (20 + size (emitted srcfile s.code)) ++
          (emitted srcfile s.code).flatMap encTok, m⟩ := by
        refine ⟨?_, hi⟩
        have : (headerOf (20 + size (emitted srcfile s.code)) ++
          (emitted srcfile s.code).flatMap encTok).length =
            20 + size (emitted srcfile s.code) := by
          rw [List.length_append]
          rfl
        rw [this]
        exact hw
      have hsize : 20 + size (emitted srcfile s.code) < 2 ^ 31 := Nat.lt_of_le_of_lt hw hi
      rcases Dest.put_writes hfit trailer with h' | ⟨m', h', -⟩
      · exact .inl h'
      · refine .inr ⟨m', ?_, hsize⟩
        rw [← List.append_assoc]
        exact h'

end NullG.Nsp
