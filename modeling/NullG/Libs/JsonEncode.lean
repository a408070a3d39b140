/-
The JSON text of a table (`libs/data/json.c`, `n_dumpvars`).

The text is printed into a buffer of 512 bytes that is appended to the result before a string, before a nested table and
at the end; where it is appended when it is too long, it is too late. Names are printed as they are, a table with the
name `_GLOBALS` is left out, and of the control bytes some are escaped as JSON does not know it and the others not at
all. The text is one of JSON that denotes the table if and only if none of these shows (`encodes_iff`).
-/

import NullG.Lib.Json
import NullG.Libs.Printf
import NullG.Mail.Numbers

namespace NullG.Libs.JsonEncode

open NullG.Nsp NullG.Lib NullG.Mail

mutual

/-- A value. -/
inductive Val where
  | null
  | boolean (b : Bool)
  | number (q : Nsp.Num)
  | string (s : List Byte)
  | table (es : Entries)
  /-- a function, or data of another library -/
  | other

/-- The entries of a table; `hidden` says that one of `NST_HIDDEN` and `NST_SYSTEM` is set. -/
inductive Entries where
  | nil
  | cons (name : List Byte) (hidden : Bool) (v : Val) (es : Entries)

end

/-! ### `json.encode` -/

/-- `buflen += nc_snprintf(N, buf + buflen, sizeof(buf) - buflen, ...)`. There is no result if it leaves the buffer. -/
def put (buf : List Byte) (format : List Conv) : Option (List Byte) :=
  (ncVsnprintf (512 - buf.length) (512 - buf.length) format).map (buf ++ ·)

/-- The loop that prints the tabs. -/
def putTabs : Nat → List Byte → Option (List Byte)
  | 0, buf => some buf
  | depth + 1, buf => (put buf [.text (bytes "\t")]).bind (putTabs depth)

/-- What is printed before a value: `ent` entries were printed before it. -/
def putLead (depth ent : Nat) (name buf : List Byte) : Option (List Byte) :=
  (if ent ≠ 0 then put buf [.arg (bytes (if depth ≠ 0 then "," else "")), .text (bytes "\n")] else some buf).bind fun buf =>
    if depth ≠ 0 then
      (putTabs depth buf).bind fun buf =>
        put buf [.arg (bytes ""), .arg (bytes "\""), .arg name, .arg (bytes "\""), .text (bytes ": ")]
    else some buf

/-- A byte of a string. -/
def escapeByte (c : Byte) : List Byte :=
  if c = 0 then [ch '\\', 0]
  else if c = 7 then [ch '\\', ch 'a']
  else if c = 9 then [ch '\\', ch 't']
  else if c = 12 then [ch '\\', ch 'f']
  else if c = 27 then [ch '\\', ch 'e']
  else if c = 13 then [ch '\\', ch 'r']
  else if c = 10 then [ch '\\', ch 'n']
  else if c = ch '"' then [ch '\\', ch '"']
  else if c = ch '\\' then [ch '\\', ch '\\']
  else [c]

/-- `n_escape`, with `buf` in its own buffer. -/
def nEscape (out buf : List Byte) : List Byte → List Byte
  | [] => out ++ buf
  | c :: s =>
      if 512 - buf.length < 32 then nEscape (out ++ buf) (escapeByte c) s
      else nEscape out (buf ++ escapeByte c) s

/-- `nsp_tostr` of a boolean and of a number. -/
def boolText (b : Bool) : List Byte := if b then bytes "true" else bytes "false"

def numText (q : Nsp.Num) : List Byte := nNtoa q true 6

/-- `n_dumpvars`, with `out` in the result and `buf` in the buffer. -/
def dumpvars (depth : Nat) : Entries → Nat → List Byte → List Byte → Option (List Byte)
  | .nil, ent, out, buf =>
      (if ent ≠ 0 then put buf [.arg (bytes (if depth ≠ 0 then "\n" else ""))] else some buf).map (out ++ ·)
  | .cons name hidden v es, ent, out, buf =>
      let (out, buf) := if 512 < buf.length then (out ++ buf, []) else (out, buf)
      if hidden then dumpvars depth es ent out buf
      else
        match v with
        | .null | .other => dumpvars depth es ent out buf
        | .boolean b =>
            (putLead depth ent name buf).bind fun buf =>
              (put buf [.arg (boolText b)]).bind fun buf => dumpvars depth es (ent + 1) out buf
        | .number q =>
            (putLead depth ent name buf).bind fun buf =>
              (put buf [.arg (numText q)]).bind fun buf => dumpvars depth es (ent + 1) out buf
        | .string s =>
            (putLead depth ent name buf).bind fun buf =>
              (put buf [.text (bytes "\"")]).bind fun buf =>
                (put [] [.text (bytes "\"")]).bind fun buf' => dumpvars depth es (ent + 1) (nEscape (out ++ buf) [] s) buf'
        | .table fs =>
            if name = bytes "_GLOBALS" then dumpvars depth es ent out buf
            else
              (putLead depth ent name buf).bind fun buf =>
                (put buf [.text (bytes "\x7b")]).bind fun buf =>
                  match fs with
                  | .nil => (put buf [.text (bytes " \x7d")]).bind fun buf => dumpvars depth es (ent + 1) out buf
                  | .cons name' hidden' v' fs' =>
                      (put buf [.text (bytes "\n")]).bind fun buf =>
                        (dumpvars (depth + 1) (.cons name' hidden' v' fs') 0 (out ++ buf) []).bind fun out =>
                          (putTabs depth []).bind fun buf =>
                            (put buf [.text (bytes "\x7d")]).bind fun buf => dumpvars depth es (ent + 1) out buf

/-- `json.encode(t)`, where the argument is the last of the local variables. -/
def jsonEncode (t : Val) : Option (List Byte) :=
  match t with
  | .null => some (bytes "N U L L")
  | t => dumpvars 0 (.cons (bytes "1") false t .nil) 0 [] []

/-! ### The text -/

/-- What stands before a value. -/
def leadText (depth ent : Nat) (name : List Byte) : List Byte :=
  (if ent ≠ 0 then bytes (if depth ≠ 0 then "," else "") ++ bytes "\n" else []) ++
    if depth ≠ 0 then List.replicate depth (ch '\t') ++ bytes "\"" ++ name ++ bytes "\": " else []

/-- What is printed of a table, but for its braces. -/
def text (depth : Nat) : Entries → Nat → List Byte
  | .nil, ent => if ent ≠ 0 then bytes (if depth ≠ 0 then "\n" else "") else []
  | .cons _ true _ es, ent => text depth es ent
  | .cons _ false .null es, ent => text depth es ent
  | .cons _ false .other es, ent => text depth es ent
  | .cons name false (.boolean b) es, ent => leadText depth ent name ++ boolText b ++ text depth es (ent + 1)
  | .cons name false (.number q) es, ent => leadText depth ent name ++ numText q ++ text depth es (ent + 1)
  | .cons name false (.string s) es, ent =>
      leadText depth ent name ++ (bytes "\"" ++ s.flatMap escapeByte ++ bytes "\"") ++ text depth es (ent + 1)
  | .cons name false (.table .nil) es, ent =>
      if name = bytes "_GLOBALS" then text depth es ent
      else leadText depth ent name ++ bytes "\x7b \x7d" ++ text depth es (ent + 1)
  | .cons name false (.table (.cons name' hidden' v' fs')) es, ent =>
      if name = bytes "_GLOBALS" then text depth es ent
      else
        leadText depth ent name ++ (bytes "\x7b\n" ++ text (depth + 1) (.cons name' hidden' v' fs') 0 ++
          List.replicate depth (ch '\t') ++ bytes "\x7d") ++ text depth es (ent + 1)

/-- The text stays in the buffer, which holds `n` bytes: it is emptied before a string, behind the brace that opens a
table with entries, and at the end. -/
def Fits (depth : Nat) : Entries → Nat → Nat → Prop
  | .nil, ent, n => n + (if ent ≠ 0 ∧ depth ≠ 0 then 1 else 0) ≤ 511
  | .cons _ true _ es, ent, n => Fits depth es ent n
  | .cons _ false .null es, ent, n => Fits depth es ent n
  | .cons _ false .other es, ent, n => Fits depth es ent n
  | .cons name false (.boolean b) es, ent, n =>
      Fits depth es (ent + 1) (n + (leadText depth ent name).length + (boolText b).length)
  | .cons name false (.number q) es, ent, n =>
      Fits depth es (ent + 1) (n + (leadText depth ent name).length + (numText q).length)
  | .cons name false (.string _) es, ent, n =>
      n + (leadText depth ent name).length + 1 ≤ 511 ∧ Fits depth es (ent + 1) 1
  | .cons name false (.table .nil) es, ent, n =>
      if name = bytes "_GLOBALS" then Fits depth es ent n
      else Fits depth es (ent + 1) (n + (leadText depth ent name).length + 3)
  | .cons name false (.table (.cons name' hidden' v' fs')) es, ent, n =>
      if name = bytes "_GLOBALS" then Fits depth es ent n
      else
        n + (leadText depth ent name).length + 2 ≤ 511 ∧ Fits (depth + 1) (.cons name' hidden' v' fs') 0 0 ∧
          Fits depth es (ent + 1) (depth + 1)

section

variable {depth ent n : Nat} {name out buf s : List Byte} {f g : List Conv}

theorem put_eq (buf : List Byte) (f : List Conv) :
    put buf f = if (buf ++ printed f).length ≤ 511 then some (buf ++ printed f) else none := by
  rw [put, ncVsnprintf_self, List.length_append]
  by_cases h : buf.length + (printed f).length ≤ 511
  · rw [if_pos h, if_pos (by omega)]
    rfl
  · rw [if_neg h, if_neg (by omega)]
    rfl

theorem put_put (buf : List Byte) (f g : List Conv) : (put buf f).bind (put · g) = put buf (f ++ g) := by
  have hprinted : printed (f ++ g) = printed f ++ printed g := List.flatMap_append
  rw [put_eq, put_eq, hprinted]
  by_cases h : (buf ++ printed f).length ≤ 511
  · rw [if_pos h, Option.bind_some, put_eq, List.append_assoc]
  · rw [if_neg h, Option.bind_none, if_neg]
    rw [← List.append_assoc, List.length_append]
    omega

theorem put_nil (h : buf.length ≤ 511) : put buf [] = some buf := by
  have hprinted : printed [] = [] := rfl
  rw [put_eq, hprinted, List.append_nil, if_pos h]

theorem putTabs_eq (h : buf.length ≤ 511) : putTabs depth buf = put buf [.text (List.replicate depth (ch '\t'))] := by
  induction depth generalizing buf with
  | zero =>
      rw [putTabs, put_eq]
      simp [printed, Conv.printed, h]
  | succ depth ih =>
      have hstep : put buf [.text (bytes "\t")] = if buf.length + 1 ≤ 511 then some (buf ++ [ch '\t']) else none := by
        rw [put_eq]
        simp [printed, Conv.printed, bytes]
      rw [putTabs, hstep, put_eq]
      by_cases hlen : buf.length + 1 ≤ 511
      · rw [if_pos hlen, Option.bind_some, ih (by simpa using hlen), put_eq]
        simp [printed, Conv.printed, List.replicate_succ]
      · rw [if_neg hlen, Option.bind_none, if_neg]
        simp [printed, Conv.printed]
        omega

theorem putLead_eq (h : buf.length ≤ 511) (depth ent : Nat) (name : List Byte) :
    putLead depth ent name buf = put buf [.text (leadText depth ent name)] := by
  have hprinted : ∀ {f g : List Conv}, printed f = printed g → ∀ buf, put buf f = put buf g := by
    intro f g hfg buf
    rw [put_eq, put_eq, hfg]
  have hsep : (if ent ≠ 0 then put buf [.arg (bytes (if depth ≠ 0 then "," else "")), .text (bytes "\n")] else some buf) =
      put buf [.text (if ent ≠ 0 then bytes (if depth ≠ 0 then "," else "") ++ bytes "\n" else [])] := by
    by_cases hent : ent ≠ 0
    · rw [if_pos hent, if_pos hent]
      exact hprinted (by simp [printed, Conv.printed]) buf
    · rw [if_neg hent, if_neg hent, ← put_nil h]
      exact hprinted (by simp [printed, Conv.printed]) buf
  rw [putLead, hsep, leadText]
  generalize (if ent ≠ 0 then bytes (if depth ≠ 0 then "," else "") ++ bytes "\n" else []) = sep
  by_cases hdepth : depth ≠ 0
  · simp only [if_pos hdepth]
    rw [put_eq]
    by_cases hfit : (buf ++ printed [.text sep]).length ≤ 511
    · rw [if_pos hfit, Option.bind_some, putTabs_eq hfit, put_put, put_eq, put_eq]
      simp [printed, Conv.printed, bytes]
    · rw [if_neg hfit, Option.bind_none, put_eq, if_neg]
      simp only [printed, Conv.printed, List.flatMap_cons, List.flatMap_nil, List.append_nil, List.length_append]
        at hfit ⊢
      omega
  · simp only [if_neg hdepth, List.append_nil]
    exact Option.bind_fun_some _

/-- What stands before a value and the value are printed as one. -/
theorem putLead_bind {α : Type} (h : buf.length ≤ 511) (depth ent : Nat) (name : List Byte) (f : List Conv)
    (k : List Byte → Option α) :
    ((putLead depth ent name buf).bind fun buf => (put buf f).bind k) =
      if buf.length + (leadText depth ent name).length + (printed f).length ≤ 511 then
        k (buf ++ leadText depth ent name ++ printed f)
      else none := by
  have hprinted : printed ([.text (leadText depth ent name)] ++ f) = leadText depth ent name ++ printed f := rfl
  rw [putLead_eq h, ← Option.bind_assoc, put_put, put_eq, hprinted, ← List.append_assoc, List.length_append,
    List.length_append]
  split <;> rfl

theorem nEscape_eq (out buf s : List Byte) : nEscape out buf s = out ++ buf ++ s.flatMap escapeByte := by
  induction s generalizing out buf with
  | nil => simp [nEscape]
  | cons c s ih =>
      rw [nEscape]
      split <;> simp [ih]

theorem Fits.le : ∀ {es : Entries} {ent n : Nat}, Fits depth es ent n → n ≤ 511
  | .nil, _, _, h => by
      rw [Fits] at h
      omega
  | .cons _ true _ es, ent, n, h => Fits.le (show Fits depth es ent n by rwa [Fits] at h)
  | .cons _ false .null es, ent, n, h => Fits.le (show Fits depth es ent n by rwa [Fits] at h)
  | .cons _ false .other es, ent, n, h => Fits.le (show Fits depth es ent n by rwa [Fits] at h)
  | .cons name false (.boolean b) es, ent, n, h => by
      have hrest : Fits depth es (ent + 1) (n + (leadText depth ent name).length + (boolText b).length) := by
        rwa [Fits] at h
      have hle := Fits.le hrest
      omega
  | .cons name false (.number q) es, ent, n, h => by
      have hrest : Fits depth es (ent + 1) (n + (leadText depth ent name).length + (numText q).length) := by
        rwa [Fits] at h
      have hle := Fits.le hrest
      omega
  | .cons name false (.string _) es, ent, n, h => by
      have hlead : n + (leadText depth ent name).length + 1 ≤ 511 ∧ Fits depth es (ent + 1) 1 := by
        rwa [Fits] at h
      omega
  | .cons name false (.table .nil) es, ent, n, h => by
      by_cases hname : name = bytes "_GLOBALS"
      · exact Fits.le (show Fits depth es ent n by rwa [Fits, if_pos hname] at h)
      · have hrest : Fits depth es (ent + 1) (n + (leadText depth ent name).length + 3) := by
          rwa [Fits, if_neg hname] at h
        have hle := Fits.le hrest
        omega
  | .cons name false (.table (.cons name' hidden' v' fs')) es, ent, n, h => by
      by_cases hname : name = bytes "_GLOBALS"
      · exact Fits.le (show Fits depth es ent n by rwa [Fits, if_pos hname] at h)
      · rw [Fits, if_neg hname] at h
        have hlead := h.1
        omega

theorem dumpvars_hidden (h : buf.length ≤ 511) (v : Val) (es : Entries) :
    dumpvars depth (.cons name true v es) ent out buf = dumpvars depth es ent out buf := by
  rw [dumpvars, if_neg (by omega)]
  exact if_pos rfl

/-- An entry that is printed in one piece. -/
theorem putLead_rest_iff {α : Type} {r : α} {P : Prop} (hbuf : buf.length ≤ 511) {f : List Conv}
    {k : List Byte → Option α} {m : Nat} (hm : (printed f).length = m)
    (hk : (buf ++ leadText depth ent name ++ printed f).length ≤ 511 →
      (k (buf ++ leadText depth ent name ++ printed f) = some r ↔ P))
    (hP : P → buf.length + (leadText depth ent name).length + m ≤ 511) :
    ((putLead depth ent name buf).bind fun buf => (put buf f).bind k) = some r ↔ P := by
  rw [putLead_bind hbuf, hm]
  split
  · next hfit => exact hk (by rw [List.length_append, List.length_append]; omega)
  · next hfit => exact ⟨fun h => (nomatch h), fun h => absurd (hP h) hfit⟩

theorem printed_arg (s : List Byte) : printed [.arg s] = s := List.append_nil s

theorem printed_text (s : List Byte) : printed [.text s] = s := List.append_nil s

/-- What closes a table. -/
theorem putTabs_bind {α : Type} (depth : Nat) (k : List Byte → Option α) :
    ((putTabs depth []).bind fun buf => (put buf [.text (bytes "\x7d")]).bind k) =
      if depth + 1 ≤ 511 then k (List.replicate depth (ch '\t') ++ bytes "\x7d") else none := by
  have hprinted : printed ([.text (List.replicate depth (ch '\t'))] ++ [.text (bytes "\x7d")]) =
      List.replicate depth (ch '\t') ++ bytes "\x7d" := rfl
  have hlen : (List.replicate depth (ch '\t') ++ bytes "\x7d").length = depth + 1 := by
    rw [List.length_append, List.length_replicate]
    rfl
  rw [putTabs_eq (Nat.zero_le _), ← Option.bind_assoc, put_put, put_eq, hprinted, List.nil_append, hlen]
  split <;> rfl

/-- The text is printed if and only if it fits. -/
theorem dumpvars_iff : ∀ {depth : Nat} {es : Entries} {ent : Nat} {out buf r : List Byte}, buf.length ≤ 511 →
    (dumpvars depth es ent out buf = some r ↔ Fits depth es ent buf.length ∧ r = out ++ buf ++ text depth es ent)
  | depth, .nil, ent, out, buf, r, hbuf => by
      rw [dumpvars, Fits, text]
      by_cases hent : ent ≠ 0
      · have hlen : (bytes (if depth ≠ 0 then "\n" else "")).length = if ent ≠ 0 ∧ depth ≠ 0 then 1 else 0 := by
          by_cases hdepth : depth ≠ 0
          · rw [if_pos hdepth, if_pos ⟨hent, hdepth⟩]
            rfl
          · rw [if_neg hdepth, if_neg fun h => hdepth h.2]
            rfl
        rw [if_pos hent, if_pos hent, put_eq, printed_arg, List.length_append, hlen]
        by_cases hfit : buf.length + (if ent ≠ 0 ∧ depth ≠ 0 then 1 else 0) ≤ 511
        · rw [if_pos hfit, and_iff_right hfit, Option.map_some, Option.some.injEq, eq_comm, List.append_assoc]
        · rw [if_neg hfit]
          exact ⟨fun h => (nomatch h), fun h => absurd h.1 hfit⟩
      · simp [hent, hbuf, eq_comm]
  | depth, .cons name true v es, ent, out, buf, r, hbuf => by
      rw [dumpvars_hidden hbuf, Fits, text]
      exact dumpvars_iff hbuf
  | depth, .cons name false .null es, ent, out, buf, r, hbuf => by
      rw [dumpvars, if_neg (by omega), Fits, text]
      exact dumpvars_iff hbuf
  | depth, .cons name false .other es, ent, out, buf, r, hbuf => by
      rw [dumpvars, if_neg (by omega), Fits, text]
      exact dumpvars_iff hbuf
  | depth, .cons name false (.boolean b) es, ent, out, buf, r, hbuf => by
      rw [dumpvars, if_neg (by omega), Fits, text]
      simp only [Bool.false_eq_true, if_false]
      refine putLead_rest_iff hbuf (by rw [printed_arg]) (fun hfit => ?_) fun h => h.1.le
      rw [printed_arg] at hfit ⊢
      rw [dumpvars_iff hfit, List.length_append, List.length_append]
      simp only [List.append_assoc]
  | depth, .cons name false (.number q) es, ent, out, buf, r, hbuf => by
      rw [dumpvars, if_neg (by omega), Fits, text]
      simp only [Bool.false_eq_true, if_false]
      refine putLead_rest_iff hbuf (by rw [printed_arg]) (fun hfit => ?_) fun h => h.1.le
      rw [printed_arg] at hfit ⊢
      rw [dumpvars_iff hfit, List.length_append, List.length_append]
      simp only [List.append_assoc]
  | depth, .cons name false (.string s) es, ent, out, buf, r, hbuf => by
      rw [dumpvars, if_neg (by omega), Fits, text]
      simp only [Bool.false_eq_true, if_false]
      refine putLead_rest_iff hbuf (m := 1) (by rw [printed_text]; rfl) (fun hfit => ?_) fun h => h.1.1
      rw [printed_text] at hfit ⊢
      have hquote : put [] [.text (bytes "\"")] = some (bytes "\"") := rfl
      have hlen : buf.length + (leadText depth ent name).length + 1 ≤ 511 := by
        rwa [List.length_append, List.length_append] at hfit
      rw [hquote, Option.bind_some, dumpvars_iff (by decide), nEscape_eq, and_iff_right hlen]
      simp only [List.append_assoc, List.nil_append]
      rfl
  | depth, .cons name false (.table .nil) es, ent, out, buf, r, hbuf => by
      rw [dumpvars, if_neg (by omega), Fits, text]
      simp only [Bool.false_eq_true, if_false]
      by_cases hname : name = bytes "_GLOBALS"
      · simp only [if_pos hname]
        exact dumpvars_iff hbuf
      · simp only [if_neg hname]
        refine putLead_rest_iff hbuf (m := 1) (by rw [printed_text]; rfl) (fun hfit => ?_) fun h => ?_
        · rw [printed_text] at hfit ⊢
          rw [put_eq, printed_text]
          split
          · next hfit' =>
              rw [Option.bind_some, dumpvars_iff hfit', List.length_append, List.length_append, List.length_append]
              simp only [List.append_assoc]
              rfl
          · next hfit' =>
              rw [List.length_append, List.length_append, List.length_append] at hfit'
              exact ⟨fun h => (nomatch h), fun h => absurd h.1.le hfit'⟩
        · have hle := h.1.le
          omega
  | depth, .cons name false (.table (.cons name' hidden' v' fs')) es, ent, out, buf, r, hbuf => by
      rw [dumpvars, if_neg (by omega), Fits, text]
      simp only [Bool.false_eq_true, if_false]
      by_cases hname : name = bytes "_GLOBALS"
      · simp only [if_pos hname]
        exact dumpvars_iff hbuf
      · simp only [if_neg hname]
        refine putLead_rest_iff hbuf (m := 1) (by rw [printed_text]; rfl) (fun hfit => ?_) fun h => ?_
        · rw [printed_text] at hfit ⊢
          have hempty : ([] : List Byte).length ≤ 511 := Nat.zero_le _
          rw [put_eq, printed_text]
          by_cases hfit' : (buf ++ leadText depth ent name ++ bytes "\x7b" ++ bytes "\n").length ≤ 511
          · have hlen : buf.length + (leadText depth ent name).length + 2 ≤ 511 := by
              rwa [List.length_append, List.length_append, List.length_append] at hfit'
            rw [if_pos hfit', Option.bind_some, Option.bind_eq_some_iff, and_iff_right hlen]
            simp only [dumpvars_iff hempty, putTabs_bind]
            by_cases hdepth : depth + 1 ≤ 511
            · have hclose : (List.replicate depth (ch '\t') ++ bytes "\x7d").length = depth + 1 := by
                rw [List.length_append, List.length_replicate]
                rfl
              simp only [if_pos hdepth, dumpvars_iff (hclose ▸ hdepth), hclose]
              constructor
              · rintro ⟨_, ⟨hfits, rfl⟩, hrest, rfl⟩
                refine ⟨⟨hfits, hrest⟩, ?_⟩
                simp only [List.append_assoc, List.append_nil]
                rfl
              · rintro ⟨⟨hfits, hrest⟩, rfl⟩
                refine ⟨_, ⟨hfits, rfl⟩, hrest, ?_⟩
                simp only [List.append_assoc, List.append_nil]
                rfl
            · simp only [if_neg hdepth]
              exact ⟨fun ⟨_, _, h⟩ => (nomatch h), fun h => absurd h.1.2.le hdepth⟩
          · rw [if_neg hfit', Option.bind_none]
            rw [List.length_append, List.length_append, List.length_append] at hfit'
            exact ⟨fun h => (nomatch h), fun h => absurd h.1.1 hfit'⟩
        · have hle := h.1.1
          omega

end

/-! ### What it should denote -/

mutual

/-- The tree of a value. -/
def Val.tree : Val → Json
  | .null | .other => .null
  | .boolean b => .bool b
  | .number q => .num q
  | .string s => .str s
  | .table es => .obj es.members

/-- The members of the object for a table. -/
def Entries.members : Entries → List (List Byte × Json)
  | .nil => []
  | .cons name _ v es => (name, v.tree) :: es.members

end

mutual

/-- Values whose tree has a text. -/
def Val.Valid : Val → Prop
  | .null | .other => False
  | .boolean _ => True
  | .number q => ∃ n : Int, q = n ∧ n.natAbs < 2 ^ 53
  | .string s => 0 ∉ s ∧ Json.Utf8 s
  | .table es => es.Valid

/-- The entries of a table: no name is there twice. -/
def Entries.Valid : Entries → Prop
  | .nil => True
  | .cons name hidden v es =>
      (hidden = false ∧ name ≠ [] ∧ name.length ≤ 63 ∧ 0 ∉ name ∧ Json.Utf8 name ∧
        name ∉ es.members.map Prod.fst) ∧ v.Valid ∧ es.Valid

end

/-- A name that is the same in JSON. -/
def PlainName (name : List Byte) : Prop := ∀ c ∈ name, 0x20 ≤ c ∧ c ≠ 0x22 ∧ c ≠ 0x5C

instance (name : List Byte) : Decidable (PlainName name) :=
  List.decidableBAll (fun c => 0x20 ≤ c ∧ c ≠ 0x22 ∧ c ≠ 0x5C) name

/-- A string whose control bytes have an escape in JSON. -/
def PlainString (s : List Byte) : Prop := ∀ c ∈ s, 0x20 ≤ c ∨ c = 9 ∨ c = 10 ∨ c = 12 ∨ c = 13

instance (s : List Byte) : Decidable (PlainString s) :=
  List.decidableBAll (fun c => 0x20 ≤ c ∨ c = 9 ∨ c = 10 ∨ c = 12 ∨ c = 13) s

mutual

/-- Values that are printed as JSON has them. -/
def Val.Plain : Val → Prop
  | .null | .other | .boolean _ | .number _ => True
  | .string s => PlainString s
  | .table es => es.Plain

/-- The same of the entries of a table. -/
def Entries.Plain : Entries → Prop
  | .nil => True
  | .cons name _ v es => (PlainName name ∧ ∀ fs, v = .table fs → name ≠ bytes "_GLOBALS") ∧ v.Plain ∧ es.Plain

end

/-- A table. -/
structure Table where
  entries : Entries
  valid : entries.Valid

/-- What `json.encode` returns is a document that denotes the table. -/
def Encodes (t : Table) : Prop :=
  ∃ r, jsonEncode (.table t.entries) = some r ∧ ∃ j, Json.Text r j ∧ Json.Same j (Val.table t.entries).tree

/-! ### The text of a table -/

/-- The text of a value. -/
def valText (depth : Nat) : Val → List Byte
  | .null | .other => []
  | .boolean b => boolText b
  | .number q => numText q
  | .string s => bytes "\"" ++ s.flatMap escapeByte ++ bytes "\""
  | .table .nil => bytes "\x7b \x7d"
  | .table (.cons name hidden v es) =>
      bytes "\x7b\n" ++ text (depth + 1) (.cons name hidden v es) 0 ++ List.replicate depth (ch '\t') ++ bytes "\x7d"

section

variable {depth ent : Nat} {name : List Byte} {v : Val} {es : Entries}

theorem text_globals (fs es : Entries) :
    text depth (.cons (bytes "_GLOBALS") false (.table fs) es) ent = text depth es ent := by
  cases fs with
  | nil => rw [text, if_pos rfl]
  | cons => rw [text, if_pos rfl]

theorem text_cons (hv : v.Valid) (hname : ∀ fs, v = .table fs → name ≠ bytes "_GLOBALS") :
    text depth (.cons name false v es) ent = leadText depth ent name ++ valText depth v ++ text depth es (ent + 1) := by
  cases v with
  | null => exact absurd hv (by simp [Val.Valid])
  | other => exact absurd hv (by simp [Val.Valid])
  | boolean b => rw [text, valText]
  | number q => rw [text, valText]
  | string s => rw [text, valText]
  | table fs =>
      cases fs with
      | nil => rw [text, if_neg (hname _ rfl), valText]
      | cons => rw [text, if_neg (hname _ rfl), valText]

/-- An entry is printed, or it is a table of globals. -/
theorem text_cases (depth ent : Nat) (name : List Byte) (es : Entries) (hv : v.Valid) :
    (text depth (.cons name false v es) ent =
      leadText depth ent name ++ valText depth v ++ text depth es (ent + 1) ∧
        ∀ fs, v = .table fs → name ≠ bytes "_GLOBALS") ∨
    (name = bytes "_GLOBALS" ∧ text depth (.cons name false v es) ent = text depth es ent) := by
  by_cases hname : ∀ fs, v = .table fs → name ≠ bytes "_GLOBALS"
  · exact .inl ⟨text_cons hv hname, hname⟩
  · simp only [not_forall, not_not] at hname
    obtain ⟨fs, rfl, rfl⟩ := hname
    exact .inr ⟨rfl, text_globals fs es⟩

/-- What is printed of a table by `json.encode`. -/
theorem jsonEncode_table {r : List Byte} (es : Entries) :
    jsonEncode (.table es) = some r ↔ Fits 1 es 0 0 ∧ r = valText 0 (.table es) := by
  have hname : bytes "1" ≠ bytes "_GLOBALS" := by decide
  have hlead : leadText 0 0 (bytes "1") = [] := rfl
  have hend : bytes "" = [] := rfl
  show dumpvars 0 (.cons (bytes "1") false (.table es) .nil) 0 [] [] = some r ↔ _
  rw [dumpvars_iff (Nat.zero_le _), List.nil_append, List.nil_append]
  cases es with
  | nil => simp [text, Fits, valText, hname, hlead, hend]
  | cons name hidden v es => simp [text, Fits, valText, hname, hlead, hend]

end

/-! ### What a document tells of the table -/

section

open Json (Scans Mode Free)

variable {depth ent n w : Nat} {m : Mode} {name t u s : List Byte} {v : Val} {es : Entries}

/-- The text breaks off a string that it stands in. -/
def Breaks (t : List Byte) : Prop := ∀ n, ¬Scans .str t .out n

theorem scans_free (ht : Free t) : Scans .out (t ++ u) m n ↔ Scans .out u m n := by
  rw [Json.scans_append]
  constructor
  · rintro ⟨m', i, k, hfirst, hrest, rfl⟩
    obtain ⟨rfl, rfl⟩ := hfirst.unique ht.scans
    rwa [Nat.zero_add]
  · exact fun h => ⟨.out, 0, n, ht.scans, h, (Nat.zero_add n).symm⟩

theorem breaks_plain (ht : PlainName t) (hu : Breaks u) : Breaks (t ++ u) := by
  intro n h
  obtain ⟨m', i, k, hfirst, hrest, -⟩ := Json.scans_append.mp h
  obtain ⟨rfl, -⟩ := hfirst.unique (Json.scans_plain ht)
  exact hu k hrest

theorem breaks_newline (u : List Byte) : Breaks (bytes "\n" ++ u) := by
  intro n h
  obtain ⟨m', i, k, hstep, -⟩ := Json.scans_cons.mp h
  nomatch hstep

theorem PlainName.free (h : PlainName t) : Free t := fun c hc => (h c hc).2

/-- Of a name at most its bytes are found, and all of them only if it is plain. -/
theorem scans_name (h : Scans .str name m n) : n ≤ name.length ∧ (n = name.length → PlainName name) := by
  have hall : ∀ {name : List Byte} {m m' : Mode} {n : Nat}, Scans m name m' n →
      n ≤ name.length ∧ (n = name.length → m = .str → PlainName name) := by
    intro name
    induction name with
    | nil =>
        intro m m' n h
        obtain ⟨-, rfl⟩ := Json.scans_nil.mp h
        exact ⟨Nat.le_refl 0, fun _ _ c hc => absurd hc List.not_mem_nil⟩
    | cons c name ih =>
        intro m m' n h
        obtain ⟨m₁, i, k, hstep, hrest, rfl⟩ := Json.scans_cons.mp h
        obtain ⟨hle, hplain⟩ := ih hrest
        have hone : i ≤ 1 := by
          revert hstep
          unfold Json.step
          cases m <;> dsimp only <;> repeat' split
          all_goals simp
          all_goals omega
        rw [List.length_cons]
        refine ⟨by omega, fun heq hm => ?_⟩
        subst hm
        have hi : i = 1 := by omega
        rw [Json.step] at hstep
        split at hstep
        · simp at hstep
          omega
        · split at hstep
          · simp at hstep
            omega
          · split at hstep
            · cases hstep
            · next hquote hback hlow =>
                have hm₁ : m₁ = .str := by
                  simp at hstep
                  exact hstep.1.symm
                intro d hd
                rcases List.mem_cons.mp hd with rfl | hd
                · exact ⟨UInt8.not_lt.mp hlow, hquote, hback⟩
                · exact hplain (by omega) hm₁ d hd
  exact ⟨(hall h).1, fun heq => (hall h).2 heq rfl⟩

/-- Behind the first quote of a text. -/
theorem scans_quote (h : Scans .out (0x22 :: u) m n) : Scans .str u m n := by
  obtain ⟨m', i, k, hstep, hrest, rfl⟩ := Json.scans_cons.mp h
  obtain ⟨rfl, rfl⟩ : Mode.str = m' ∧ 0 = i := by simpa [Json.step] using hstep
  rwa [Nat.zero_add]

/-- A quote that something follows that breaks off a string ends one. -/
theorem scans_close (hu : Breaks u) (h : Scans m (0x22 :: u) .out n) : m = .str ∧ Scans .out u .out n := by
  obtain ⟨m', i, k, hstep, hrest, rfl⟩ := Json.scans_cons.mp h
  cases m with
  | out =>
      obtain ⟨rfl, -⟩ : Mode.str = m' ∧ 0 = i := by simpa [Json.step] using hstep
      exact absurd hrest (hu _)
  | str =>
      obtain ⟨rfl, rfl⟩ : Mode.out = m' ∧ 0 = i := by simpa [Json.step] using hstep
      rw [Nat.zero_add]
      exact ⟨rfl, hrest⟩
  | esc =>
      obtain ⟨rfl, -⟩ : Mode.str = m' ∧ 1 = i := by simpa [Json.step, Json.simpleEscape] using hstep
      exact absurd hrest (hu _)

/-- A name between its quotes ends there, if it is followed by what breaks off a string. -/
theorem scans_lead (hdepth : depth ≠ 0) (hu : Breaks u) (h : Scans .out (leadText depth ent name ++ u) .out w) :
    ∃ n k, w = n + k ∧ Scans .out u .out k ∧ n ≤ name.length ∧ (n = name.length → PlainName name) := by
  have hsep : Free ((if ent ≠ 0 then bytes (if depth ≠ 0 then "," else "") ++ bytes "\n" else []) ++
      List.replicate depth (ch '\t')) := by
    rw [if_pos hdepth]
    refine Free.append ?_ fun c hc => ?_
    · split <;> decide
    · rw [List.eq_of_mem_replicate hc]
      decide
  have hsplit : leadText depth ent name ++ u = ((if ent ≠ 0 then bytes (if depth ≠ 0 then "," else "") ++ bytes "\n"
      else []) ++ List.replicate depth (ch '\t')) ++ (0x22 :: (name ++ (0x22 :: (bytes ": " ++ u)))) := by
    simp only [leadText, if_pos hdepth, List.append_assoc]
    rfl
  rw [hsplit, scans_free hsep] at h
  obtain ⟨m, n, k, hname, hrest, rfl⟩ := Json.scans_append.mp (scans_quote h)
  obtain ⟨rfl, hbehind⟩ := scans_close (breaks_plain (by decide) hu) hrest
  rw [scans_free (by decide)] at hbehind
  obtain ⟨hle, hplain⟩ := scans_name hname
  exact ⟨n, k, rfl, hbehind, hle, hplain⟩

/-! ### Strings -/

/-- A byte of a string: a backslash and an escape, or itself. -/
theorem escapeByte_cases (c : Byte) :
    (∃ e, escapeByte c = [0x5C, e] ∧ ((c = 9 ∨ c = 10 ∨ c = 12 ∨ c = 13 ∨ c = 0x22 ∨ c = 0x5C) ∧
        Json.simpleEscape e = some c ∨ (c = 0 ∨ c = 7 ∨ c = 27) ∧ e ≠ 0x75 ∧ Json.simpleEscape e = none)) ∨
      (escapeByte c = [c] ∧ c ≠ 0x22 ∧ c ≠ 0x5C) := by
  unfold escapeByte
  have hquote : ch '"' = 0x22 := rfl
  have hback : ch '\\' = 0x5C := rfl
  rw [hquote, hback]
  by_cases h0 : c = 0
  · subst h0
    exact .inl ⟨0, rfl, .inr (by decide)⟩
  rw [if_neg h0]
  by_cases h7 : c = 7
  · subst h7
    exact .inl ⟨ch 'a', rfl, .inr (by decide)⟩
  rw [if_neg h7]
  by_cases h9 : c = 9
  · subst h9
    exact .inl ⟨ch 't', rfl, .inl (by decide)⟩
  rw [if_neg h9]
  by_cases h12 : c = 12
  · subst h12
    exact .inl ⟨ch 'f', rfl, .inl (by decide)⟩
  rw [if_neg h12]
  by_cases h27 : c = 27
  · subst h27
    exact .inl ⟨ch 'e', rfl, .inr (by decide)⟩
  rw [if_neg h27]
  by_cases h13 : c = 13
  · subst h13
    exact .inl ⟨ch 'r', rfl, .inl (by decide)⟩
  rw [if_neg h13]
  by_cases h10 : c = 10
  · subst h10
    exact .inl ⟨ch 'n', rfl, .inl (by decide)⟩
  rw [if_neg h10]
  by_cases h34 : c = 0x22
  · subst h34
    exact .inl ⟨0x22, rfl, .inl (by decide)⟩
  rw [if_neg h34]
  by_cases h92 : c = 0x5C
  · subst h92
    exact .inl ⟨0x5C, rfl, .inl (by decide)⟩
  rw [if_neg h92]
  exact .inr ⟨rfl, h34, h92⟩

/-- What is found of a string, and that it is plain. -/
theorem scans_escape (h : Scans .str (s.flatMap escapeByte ++ u) m w) :
    PlainString s ∧ ∃ k, w = s.length + k ∧ Scans .str u m k := by
  induction s generalizing w with
  | nil => exact ⟨fun c hc => absurd hc List.not_mem_nil, w, (Nat.zero_add w).symm, h⟩
  | cons c s ih =>
      rw [List.flatMap_cons, List.append_assoc] at h
      have hone : (0x20 ≤ c ∨ c = 9 ∨ c = 10 ∨ c = 12 ∨ c = 13) ∧
          ∃ k, w = 1 + k ∧ Scans .str (s.flatMap escapeByte ++ u) m k := by
        rcases escapeByte_cases c with ⟨e, he, hcase⟩ | ⟨he, hquote, hback⟩
        · rw [he] at h
          obtain ⟨m₁, i, l, hfirst, hrest, rfl⟩ := Json.scans_cons.mp h
          obtain ⟨m₂, j, k, hsecond, hbehind, rfl⟩ := Json.scans_cons.mp hrest
          obtain ⟨rfl, rfl⟩ : Mode.esc = m₁ ∧ 0 = i := by simpa [Json.step] using hfirst
          rcases hcase with ⟨hc, hsimple⟩ | ⟨-, hnot, hsimple⟩
          · obtain ⟨rfl, rfl⟩ : Mode.str = m₂ ∧ 1 = j := by simpa [Json.step, hsimple] using hsecond
            refine ⟨?_, k, Nat.zero_add _, hbehind⟩
            rcases hc with rfl | rfl | rfl | rfl | rfl | rfl <;> decide
          · simp [Json.step, hsimple, hnot] at hsecond
        · rw [he] at h
          obtain ⟨m₁, i, k, hfirst, hrest, rfl⟩ := Json.scans_cons.mp h
          rw [Json.step, if_neg hquote, if_neg hback] at hfirst
          split at hfirst
          · cases hfirst
          · next hlow =>
              obtain ⟨rfl, rfl⟩ : Mode.str = m₁ ∧ 1 = i := by simpa using hfirst
              exact ⟨.inl (UInt8.not_lt.mp hlow), k, rfl, hrest⟩
      obtain ⟨hc, l, rfl, hrest⟩ := hone
      obtain ⟨hs, k, rfl, hbehind⟩ := ih hrest
      refine ⟨fun d hd => ?_, k, ?_, hbehind⟩
      · rcases List.mem_cons.mp hd with rfl | hd
        · exact hc
        · exact hs d hd
      · rw [List.length_cons]
        omega

/-- Outside of a string there is no quote and no backslash in it. -/
theorem scans_escape_out (h : Scans .out (s.flatMap escapeByte ++ u) m w) : ∃ k, Scans .out u m k := by
  induction s generalizing w with
  | nil => exact ⟨w, h⟩
  | cons c s ih =>
      rw [List.flatMap_cons, List.append_assoc] at h
      rcases escapeByte_cases c with ⟨e, he, -⟩ | ⟨he, hquote, hback⟩
      · rw [he] at h
        obtain ⟨m₁, i, k, hfirst, -⟩ := Json.scans_cons.mp h
        nomatch hfirst
      · have hfree : Free [c] := by
          intro d hd
          rw [List.mem_singleton.mp hd]
          exact ⟨hquote, hback⟩
        rw [he, scans_free hfree] at h
        exact ih h

theorem breaks_string (hu : Breaks u) : Breaks (bytes "\"" ++ s.flatMap escapeByte ++ bytes "\"" ++ u) := by
  intro n h
  have hquotes : bytes "\"" ++ s.flatMap escapeByte ++ bytes "\"" ++ u =
      0x22 :: (s.flatMap escapeByte ++ 0x22 :: u) := by
    simp only [List.append_assoc]
    rfl
  rw [hquotes] at h
  obtain ⟨m', i, k, hfirst, hrest, rfl⟩ := Json.scans_cons.mp h
  obtain ⟨rfl, rfl⟩ : Mode.out = m' ∧ 0 = i := by simpa [Json.step] using hfirst
  obtain ⟨l, hbehind⟩ := scans_escape_out hrest
  exact hu _ (scans_quote hbehind)

end

/-! ### Tables -/

section

open Json (Scans Mode Free)

variable {depth ent w : Nat} {u : List Byte}

theorem plain_decimal (n : Int) : PlainName (decimal n) := by
  have hdigits : ∀ k : Nat, PlainName (natDigits k) := by
    intro k c hc
    have hdigit := mem_natDigits hc
    refine ⟨UInt8.le_iff_toNat_le.mpr (show 32 ≤ c.toNat by omega), ?_, ?_⟩
    · rintro rfl
      exact absurd hdigit (by decide)
    · rintro rfl
      exact absurd hdigit (by decide)
  unfold decimal
  split
  · intro c hc
    rcases List.mem_cons.mp hc with rfl | hc
    · decide
    · exact hdigits _ c hc
  · exact hdigits _

theorem plain_numText {q : Nsp.Num} (h : (Val.number q).Valid) : PlainName (numText q) := by
  obtain ⟨n, rfl, -⟩ : ∃ n : Int, q = n ∧ n.natAbs < 2 ^ 53 := by simpa [Val.Valid] using h
  rw [numText, nNtoa_intCast]
  exact plain_decimal n

theorem plain_boolText (b : Bool) : PlainName (boolText b) := by
  cases b <;> decide

/-- What stands between two entries breaks off a string. -/
theorem breaks_text (hdepth : depth ≠ 0) : ∀ {es : Entries} {ent : Nat}, es.Valid → ent ≠ 0 →
    Breaks (text depth es ent ++ u)
  | .nil, ent, _, hent => by
      rw [text, if_pos hent, if_pos hdepth]
      exact breaks_newline u
  | .cons name hidden v es, ent, hvalid, hent => by
      obtain ⟨⟨rfl, -⟩, hv, hes⟩ := by simpa only [Entries.Valid] using hvalid
      rcases text_cases depth ent name es hv with ⟨htext, -⟩ | ⟨-, htext⟩
      · rw [htext, leadText, if_pos hent, if_pos hdepth]
        simp only [List.append_assoc]
        exact breaks_plain (by decide) (breaks_newline _)
      · rw [htext]
        exact breaks_text hdepth hes hent

theorem breaks_value {v : Val} (hv : v.Valid) (hu : Breaks u) : Breaks (valText depth v ++ u) := by
  cases v with
  | null => exact absurd hv (by simp [Val.Valid])
  | other => exact absurd hv (by simp [Val.Valid])
  | boolean b => exact breaks_plain (plain_boolText b) hu
  | number q => exact breaks_plain (plain_numText hv) hu
  | string s => exact breaks_string hu
  | table es =>
      cases es with
      | nil =>
          rw [valText]
          exact breaks_plain (by decide) hu
      | cons name hidden v es =>
          have hopen : bytes "\x7b\n" = bytes "\x7b" ++ bytes "\n" := rfl
          rw [valText, hopen]
          simp only [List.append_assoc]
          exact breaks_plain (by decide) (breaks_newline _)

/-- Of a text with the weight `total` at most that is found, and all of it only if the text is plain. -/
def Finds (t u : List Byte) (total : Nat) (plain : Prop) (w : Nat) : Prop :=
  Scans .out (t ++ u) .out w → ∃ n k, w = n + k ∧ Scans .out u .out k ∧ n ≤ total ∧ (n = total → plain)

theorem free_tabs (depth : Nat) : Free (List.replicate depth (ch '\t')) := by
  intro c hc
  rw [List.eq_of_mem_replicate hc]
  decide

mutual

theorem finds_value : ∀ {v : Val} {depth : Nat} {u : List Byte} {w : Nat}, v.Valid → Breaks u →
    Finds (valText depth v) u (Json.weight v.tree) v.Plain w
  | .null, _, _, _, hv, _, _ => absurd hv (by simp [Val.Valid])
  | .other, _, _, _, hv, _, _ => absurd hv (by simp [Val.Valid])
  | .boolean b, _, u, w, _, _, h => by
      rw [valText, scans_free (plain_boolText b).free] at h
      exact ⟨0, w, (Nat.zero_add w).symm, h, Nat.zero_le _, fun _ => by simp [Val.Plain]⟩
  | .number q, _, u, w, hv, _, h => by
      rw [valText, scans_free (plain_numText hv).free] at h
      exact ⟨0, w, (Nat.zero_add w).symm, h, Nat.zero_le _, fun _ => by simp [Val.Plain]⟩
  | .string s, depth, u, w, _, hu, h => by
      have hquotes : valText depth (.string s) ++ u = 0x22 :: (s.flatMap escapeByte ++ 0x22 :: u) := by
        simp only [valText, List.append_assoc]
        rfl
      rw [hquotes] at h
      obtain ⟨hplain, k, rfl, hrest⟩ := scans_escape (scans_quote h)
      obtain ⟨-, hbehind⟩ := scans_close hu hrest
      refine ⟨s.length, k, rfl, hbehind, ?_, fun _ => ?_⟩
      · rw [Val.tree, Json.weight]
      · rwa [Val.Plain]
  | .table .nil, _, u, w, _, _, h => by
      rw [valText, scans_free (by decide)] at h
      exact ⟨0, w, (Nat.zero_add w).symm, h, Nat.zero_le _, fun _ => by simp [Val.Plain, Entries.Plain]⟩
  | .table (.cons name hidden v es), depth, u, w, hv, _, h => by
      have hes : (Entries.cons name hidden v es).Valid := by simpa only [Val.Valid] using hv
      have hclose : Free (List.replicate depth (ch '\t') ++ bytes "\x7d") := (free_tabs depth).append (by decide)
      have hsplit : valText depth (.table (.cons name hidden v es)) ++ u = bytes "\x7b\n" ++
          (text (depth + 1) (.cons name hidden v es) 0 ++ (List.replicate depth (ch '\t') ++ bytes "\x7d" ++ u)) := by
        simp only [valText, List.append_assoc]
      rw [hsplit, scans_free (by decide)] at h
      obtain ⟨n, k, rfl, hrest, hle, hplain⟩ := finds_text (Nat.succ_ne_zero depth) hes h
      rw [scans_free hclose] at hrest
      refine ⟨n, k, rfl, hrest, ?_, fun heq => ?_⟩
      · rwa [Val.tree, Json.weight]
      · rw [Val.tree, Json.weight] at heq
        rw [Val.Plain]
        exact hplain heq

theorem finds_text : ∀ {es : Entries} {depth ent : Nat} {u : List Byte} {w : Nat}, depth ≠ 0 → es.Valid →
    Finds (text depth es ent) u (Json.weightMembers es.members) es.Plain w
  | .nil, depth, ent, u, w, _, _, h => by
      have hfree : Free (text depth .nil ent) := by
        rw [text]
        split <;> decide
      rw [scans_free hfree] at h
      exact ⟨0, w, (Nat.zero_add w).symm, h, Nat.zero_le _, fun _ => by simp [Entries.Plain]⟩
  | .cons name hidden v es, depth, ent, u, w, hdepth, hvalid, h => by
      obtain ⟨⟨rfl, hname, -⟩, hv, hes⟩ := by simpa only [Entries.Valid] using hvalid
      have hweight : Json.weightMembers (Entries.cons name false v es).members =
          name.length + Json.weight v.tree + Json.weightMembers es.members := by
        rw [Entries.members, Json.weightMembers]
      rw [hweight]
      rcases text_cases depth ent name es hv with ⟨htext, hglobals⟩ | ⟨-, htext⟩
      · -- the name, the value and the rest
        have hbreaks : Breaks (text depth es (ent + 1) ++ u) := breaks_text hdepth hes (Nat.succ_ne_zero ent)
        rw [htext, List.append_assoc, List.append_assoc] at h
        obtain ⟨n₁, k, rfl, hrest, hle₁, hplain₁⟩ := scans_lead hdepth (breaks_value hv hbreaks) h
        obtain ⟨n₂, k, rfl, hrest, hle₂, hplain₂⟩ := finds_value hv hbreaks hrest
        obtain ⟨n₃, k, rfl, hrest, hle₃, hplain₃⟩ := finds_text hdepth hes hrest
        refine ⟨n₁ + n₂ + n₃, k, by omega, hrest, by omega, fun heq => ?_⟩
        rw [Entries.Plain]
        exact ⟨⟨hplain₁ (by omega), hglobals⟩, hplain₂ (by omega), hplain₃ (by omega)⟩
      · -- the name of a table that is left out is missed
        rw [htext] at h
        obtain ⟨n, k, rfl, hrest, hle, -⟩ := finds_text hdepth hes h
        have hpos : 0 < name.length := List.length_pos_of_ne_nil hname
        exact ⟨n, k, rfl, hrest, by omega, fun heq => by omega⟩

end

/-- A table that is denoted by its text is plain. -/
theorem plain_of_text {es : Entries} (hes : es.Valid) {j : Json} (h : Json.Text (valText 0 (.table es)) j)
    (hsame : Json.Same j (Val.table es).tree) : es.Plain := by
  obtain ⟨n, hscans, hle⟩ := h.covers
  have hv : (Val.table es).Valid := by rwa [Val.Valid]
  have hnil : Breaks [] := by
    intro n h
    nomatch (Json.scans_nil.mp h).1
  rw [← List.append_nil (valText 0 (.table es))] at hscans
  obtain ⟨k, l, rfl, hend, hle', hplain⟩ := finds_value hv hnil hscans
  obtain ⟨-, rfl⟩ := Json.scans_nil.mp hend
  rw [hsame.weight_eq] at hle
  have hall := hplain (by omega)
  rwa [Val.Plain] at hall

end

/-! ### The document of a table -/

section

variable {depth ent : Nat} {name s : List Byte}

theorem isDigit_natDigits {k : Nat} : ∀ c ∈ natDigits k, Json.isDigit c = true := by
  intro c hc
  have hdigit := mem_natDigits hc
  simp [Json.isDigit, hdigit]

theorem digitsVal_natDigits (k : Nat) : Json.digitsVal (natDigits k) = k := foldl_natDigits (fun _ _ _ => rfl) k

theorem intPart_natDigits (k : Nat) : Json.IntPart (natDigits k) :=
  ⟨natDigits_ne_nil k, isDigit_natDigits, natDigits_of_head?⟩

theorem number_decimal (n : Int) : Json.Number (decimal n) n := by
  have hval : ∀ k : Nat, ((Json.digitsVal (natDigits k) : Rat) + 0) * 1 = k := by
    intro k
    rw [digitsVal_natDigits, add_zero, mul_one]
  by_cases hneg : n < 0
  · have h := Json.Number.minus (intPart_natDigits n.natAbs) Json.Frac.none Json.Exp.none
    rw [hval, List.append_nil, List.append_nil] at h
    have hn : -((n.natAbs : Nat) : Rat) = n := by
      have hint : -((n.natAbs : Nat) : Int) = n := by omega
      have hcast := congrArg (Int.cast : Int → Rat) hint
      rwa [Int.cast_neg, Int.cast_natCast] at hcast
    rw [decimal, if_pos hneg, ← hn]
    exact h
  · have h := Json.Number.plus (intPart_natDigits n.toNat) Json.Frac.none Json.Exp.none
    rw [hval, List.append_nil, List.append_nil] at h
    have hn : ((n.toNat : Nat) : Rat) = n := by
      have hint : ((n.toNat : Nat) : Int) = n := by omega
      have hcast := congrArg (Int.cast : Int → Rat) hint
      rwa [Int.cast_natCast] at hcast
    rw [decimal, if_neg hneg, ← hn]
    exact h

theorem chars_name (h : PlainName name) : Json.Chars name name := by
  induction name with
  | nil => exact .nil
  | cons c name ih =>
      obtain ⟨hlow, hquote, hback⟩ := h c List.mem_cons_self
      exact .unescaped hlow hquote hback (ih fun d hd => h d (List.mem_cons_of_mem c hd))

theorem chars_escape (h : PlainString s) : Json.Chars (s.flatMap escapeByte) s := by
  induction s with
  | nil => exact .nil
  | cons c s ih =>
      have hrest := ih fun d hd => h d (List.mem_cons_of_mem c hd)
      have hc := h c List.mem_cons_self
      rw [List.flatMap_cons]
      rcases escapeByte_cases c with ⟨e, he, ⟨-, hsimple⟩ | ⟨hbad, -⟩⟩ | ⟨he, hquote, hback⟩
      · rw [he]
        exact .escape hsimple hrest
      · rcases hbad with rfl | rfl | rfl <;> exact absurd hc (by decide)
      · rw [he]
        refine .unescaped ?_ hquote hback hrest
        rcases hc with hlow | hc
        · exact hlow
        · rcases hc with rfl | rfl | rfl | rfl <;> exact absurd he (by decide)

theorem ws_tabs (depth : Nat) : Json.Ws (List.replicate depth (ch '\t')) := by
  intro c hc
  rw [List.eq_of_mem_replicate hc]
  exact .inr (.inl rfl)

theorem ws_newline (depth : Nat) : Json.Ws (bytes "\n" ++ List.replicate depth (ch '\t')) := by
  intro c hc
  rcases List.mem_append.mp hc with hc | hc
  · rw [List.mem_singleton.mp hc]
    exact .inr (.inr (.inl rfl))
  · exact ws_tabs depth c hc

theorem ws_nil : Json.Ws [] := fun _ hc => absurd hc List.not_mem_nil

theorem ws_space : Json.Ws (bytes " ") := fun _ hc => .inl (List.mem_singleton.mp hc)

mutual

theorem value_text : ∀ {v : Val} {depth : Nat}, v.Valid → v.Plain → Json.Value (valText depth v) v.tree
  | .null, _, hv, _ => absurd hv (by simp [Val.Valid])
  | .other, _, hv, _ => absurd hv (by simp [Val.Valid])
  | .boolean true, _, _, _ => .true
  | .boolean false, _, _, _ => .false
  | .number q, _, hv, _ => by
      obtain ⟨n, rfl, -⟩ : ∃ n : Int, q = n ∧ n.natAbs < 2 ^ 53 := by simpa [Val.Valid] using hv
      rw [valText, numText, nNtoa_intCast, Val.tree]
      exact .number (number_decimal n)
  | .string s, _, _, hplain => by
      rw [Val.Plain] at hplain
      exact .string (.mk (chars_escape hplain))
  | .table .nil, _, _, _ => by
      have hopen : Json.Structural '\x7b' (bytes "\x7b ") := ⟨[], bytes " ", ws_nil, ws_space, rfl⟩
      have hclose : Json.Structural '\x7d' (bytes "\x7d") := ⟨[], [], ws_nil, ws_nil, rfl⟩
      exact .noMembers hopen hclose
  | .table (.cons name hidden v es), depth, hv, hplain => by
      have hes : (Entries.cons name hidden v es).Valid := by simpa only [Val.Valid] using hv
      have hplain' : (Entries.cons name hidden v es).Plain := by simpa only [Val.Plain] using hplain
      obtain ⟨core, htext, hmembers⟩ := members_text (Nat.succ_ne_zero depth) hes hplain' (fun h => nomatch h)
      have hopen : Json.Structural '\x7b' (bytes "\x7b\n" ++ List.replicate (depth + 1) (ch '\t')) :=
        ⟨[], bytes "\n" ++ List.replicate (depth + 1) (ch '\t'), ws_nil, ws_newline _, rfl⟩
      have hclose : Json.Structural '\x7d' (bytes "\n" ++ List.replicate depth (ch '\t') ++ bytes "\x7d") :=
        ⟨bytes "\n" ++ List.replicate depth (ch '\t'), [], ws_newline _, ws_nil, rfl⟩
      have hvalue := Json.Value.object hopen hmembers hclose
      have hsplit : valText depth (.table (.cons name hidden v es)) =
          bytes "\x7b\n" ++ List.replicate (depth + 1) (ch '\t') ++ core ++
            (bytes "\n" ++ List.replicate depth (ch '\t') ++ bytes "\x7d") := by
        rw [valText, htext, if_neg (fun h => h rfl)]
        simp only [List.append_assoc, List.nil_append]
      rw [hsplit, Val.tree]
      exact hvalue

theorem members_text : ∀ {es : Entries} {depth : Nat}, depth ≠ 0 → es.Valid → es.Plain → es ≠ .nil →
    ∃ core, (∀ ent, text depth es ent =
        (if ent ≠ 0 then bytes ",\n" else []) ++ List.replicate depth (ch '\t') ++ core ++ bytes "\n") ∧
      Json.Members core es.members
  | .nil, _, _, _, _, hne => absurd rfl hne
  | .cons name hidden v es, depth, hdepth, hvalid, hplain, _ => by
      obtain ⟨⟨rfl, -⟩, hv, hes⟩ := by simpa only [Entries.Valid] using hvalid
      obtain ⟨⟨hname, hglobals⟩, hvplain, hesplain⟩ := by simpa only [Entries.Plain] using hplain
      have hcolon : Json.Structural ':' (bytes ": ") :=
        ⟨[], bytes " ", ws_nil, ws_space, rfl⟩
      have hvalue : Json.Value (valText depth v) v.tree := value_text hv hvplain
      have hmember := Json.Member.mk (.mk (chars_name hname)) hcolon hvalue
      have hlead : ∀ ent, leadText depth ent name = (if ent ≠ 0 then bytes ",\n" else []) ++
          List.replicate depth (ch '\t') ++ (0x22 :: name ++ [0x22] ++ bytes ": ") := by
        intro ent
        have hsep : bytes "," ++ bytes "\n" = bytes ",\n" := rfl
        simp only [leadText, if_pos hdepth, hsep, List.append_assoc]
        rfl
      cases es with
      | nil =>
          refine ⟨_, fun ent => ?_, .one hmember⟩
          rw [text_cons hv hglobals, hlead, text, if_pos (Nat.succ_ne_zero ent), if_pos hdepth]
          simp only [List.append_assoc]
      | cons name' hidden' v' es' =>
          obtain ⟨core, htext, hmembers⟩ := members_text hdepth hes hesplain (fun h => nomatch h)
          have hcomma : Json.Structural ',' (bytes ",\n" ++ List.replicate depth (ch '\t')) :=
            ⟨[], bytes "\n" ++ List.replicate depth (ch '\t'), ws_nil, ws_newline _, rfl⟩
          refine ⟨_, fun ent => ?_, .cons hmember hcomma hmembers⟩
          rw [text_cons hv hglobals, hlead, htext, if_pos (Nat.succ_ne_zero ent)]
          simp only [List.append_assoc]

end

/-! ### UTF-8 -/

theorem utf8_tabs (depth : Nat) : Json.Utf8 (List.replicate depth (ch '\t')) := by
  refine Json.utf8_of_ascii fun c hc => ?_
  rw [List.eq_of_mem_replicate hc]
  decide

theorem utf8_decimal (n : Int) : Json.Utf8 (decimal n) := by
  have hdigits : ∀ k : Nat, ∀ c ∈ natDigits k, c < 0x80 := by
    intro k c hc
    have hdigit := mem_natDigits hc
    exact UInt8.lt_iff_toNat_lt.mpr (show c.toNat < 128 by omega)
  refine Json.utf8_of_ascii fun c hc => ?_
  unfold decimal at hc
  split at hc
  · rcases List.mem_cons.mp hc with rfl | hc
    · decide
    · exact hdigits _ c hc
  · exact hdigits _ c hc

theorem escapeByte_ascii {c : Byte} (hc : c < 0x80) : Json.Ascii (escapeByte c) := by
  unfold escapeByte
  split_ifs
  case neg =>
    intro d hd
    rwa [List.mem_singleton.mp hd]
  all_goals decide

theorem utf8_escape (h : Json.Utf8 s) : Json.Utf8 (s.flatMap escapeByte) := by
  refine h.flatMap (fun c hc => ?_) fun c hc => escapeByte_ascii hc
  rcases escapeByte_cases c with ⟨e, -, ⟨hsmall, -⟩ | ⟨hsmall, -⟩⟩ | ⟨he, -⟩
  · rcases hsmall with rfl | rfl | rfl | rfl | rfl | rfl <;> exact absurd hc (by decide)
  · rcases hsmall with rfl | rfl | rfl <;> exact absurd hc (by decide)
  · exact he

theorem utf8_lead (h : Json.Utf8 name) (depth ent : Nat) : Json.Utf8 (leadText depth ent name) := by
  unfold leadText
  refine Json.Utf8.append ?_ ?_
  · split
    · refine Json.utf8_of_ascii ?_
      split <;> decide
    · exact Json.utf8_of_ascii (by decide)
  · split
    · exact (((utf8_tabs depth).append (Json.utf8_of_ascii (by decide))).append h).append (Json.utf8_of_ascii (by decide))
    · exact Json.utf8_of_ascii (by decide)

mutual

theorem utf8_value : ∀ {v : Val} {depth : Nat}, v.Valid → Json.Utf8 (valText depth v)
  | .null, _, hv => absurd hv (by simp [Val.Valid])
  | .other, _, hv => absurd hv (by simp [Val.Valid])
  | .boolean true, _, _ => Json.utf8_of_ascii (t := bytes "true") (by decide)
  | .boolean false, _, _ => Json.utf8_of_ascii (t := bytes "false") (by decide)
  | .number q, _, hv => by
      obtain ⟨n, rfl, -⟩ : ∃ n : Int, q = n ∧ n.natAbs < 2 ^ 53 := by simpa [Val.Valid] using hv
      rw [valText, numText, nNtoa_intCast]
      exact utf8_decimal n
  | .string s, _, hv => by
      have hs : 0 ∉ s ∧ Json.Utf8 s := by simpa only [Val.Valid] using hv
      exact ((Json.utf8_of_ascii (by decide)).append (utf8_escape hs.2)).append (Json.utf8_of_ascii (by decide))
  | .table .nil, _, _ => Json.utf8_of_ascii (t := bytes "\x7b \x7d") (by decide)
  | .table (.cons name hidden v es), depth, hv => by
      have hes : (Entries.cons name hidden v es).Valid := by simpa only [Val.Valid] using hv
      rw [valText]
      exact (((Json.utf8_of_ascii (by decide)).append (utf8_text hes)).append (utf8_tabs depth)).append
        (Json.utf8_of_ascii (by decide))

theorem utf8_text : ∀ {es : Entries} {depth ent : Nat}, es.Valid → Json.Utf8 (text depth es ent)
  | .nil, depth, ent, _ => by
      rw [text]
      refine Json.utf8_of_ascii ?_
      split
      · split <;> decide
      · decide
  | .cons name hidden v es, depth, ent, hvalid => by
      obtain ⟨⟨rfl, -, -, -, hname, -⟩, hv, hes⟩ := by simpa only [Entries.Valid] using hvalid
      rcases text_cases depth ent name es hv with ⟨htext, -⟩ | ⟨-, htext⟩
      · rw [htext]
        exact ((utf8_lead hname depth ent).append (utf8_value hv)).append (utf8_text hes)
      · rw [htext]
        exact utf8_text hes

end

end

/-! ### When the table is denoted -/

/-- The text that is returned denotes the table if and only if it fits the buffer between two flushes, and the names and
the strings of the table are printed as JSON has them. -/
theorem encodes_iff (t : Table) : Encodes t ↔ Fits 1 t.entries 0 0 ∧ t.entries.Plain := by
  have hv : (Val.table t.entries).Valid := by
    rw [Val.Valid]
    exact t.valid
  constructor
  · rintro ⟨r, hencode, j, htext, hsame⟩
    obtain ⟨hfits, rfl⟩ := (jsonEncode_table t.entries).mp hencode
    exact ⟨hfits, plain_of_text t.valid htext hsame⟩
  · rintro ⟨hfits, hplain⟩
    have hvplain : (Val.table t.entries).Plain := by rwa [Val.Plain]
    refine ⟨_, (jsonEncode_table t.entries).mpr ⟨hfits, rfl⟩, _, ⟨utf8_value hv, ?_⟩, .refl _⟩
    exact ⟨[], _, [], by rw [List.append_nil]; rfl, ws_nil, value_text hv hvplain, ws_nil⟩

/-- A table with a bell in a string. -/
def bell : Table where
  entries := .cons (bytes "a") false (.string [7]) .nil
  valid := by
    have hname : Json.Utf8 (bytes "a") := Json.utf8_of_ascii (by decide)
    have hstring : Json.Utf8 [7] := Json.utf8_of_ascii (by decide)
    simp only [Entries.Valid, Val.Valid, Entries.members]
    exact ⟨⟨trivial, by decide, by decide, by decide, hname, by decide⟩, ⟨by decide, hstring⟩, trivial⟩

/-- JSON has no escape `\a`. -/
theorem not_encodes_bell : ¬Encodes bell := by
  rintro ⟨r, hencode, j, htext, hsame⟩
  obtain ⟨-, rfl⟩ := (jsonEncode_table bell.entries).mp hencode
  have hplain : bell.entries.Plain := plain_of_text bell.valid htext hsame
  simp only [bell, Entries.Plain, Val.Plain] at hplain
  exact absurd hplain.2.1 (by decide)

end NullG.Libs.JsonEncode
