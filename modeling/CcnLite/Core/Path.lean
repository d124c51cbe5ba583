import CcnLite.Core.Types
import CcnLite.Lib.Write

/-!
# Names as strings (`ccnl-prefix.c`)

`prefixToStrDetailed` prints a name into a buffer, piece by piece with `snprintf`, and
`prefixToPath` into a new one. What they print is `pathText` (`prefixToStrDetailed_eq`): the
components with a slash in front of each, where a control character becomes its number behind a
percent sign.
-/

namespace Ccnl

open CRun Front

/-! ## Strings -/

/-- The string in a buffer with a zero byte behind it. -/
def cstr (bs : List UInt8) : List UInt8 := bs.takeWhile (· ≠ 0)

/-- The string at the start of a memory, which must have a zero byte. -/
def rdStr (mem : List UInt8) : Run (List UInt8) :=
  if 0 ∈ mem then .ok (cstr mem) else .error (.oob mem.length)

/-- A `char`, as `ccnl_prefix_to_str` prints it: it is signed, so that a byte from 0x80 on counts as
a control character, and is widened to an `int` with its sign. -/
def printChar (b : UInt8) : List UInt8 :=
  let hex (d : Nat) : UInt8 := UInt8.ofNat (if d < 10 then 48 + d else 87 + d)
  let two := [hex (b.toNat / 16), hex (b.toNat % 16)]
  if 0x80 ≤ b then 37 :: (List.replicate 6 102 ++ two)
  else if b < 0x20 ∨ b = 0x7f then 37 :: two
  else [b]

/-- A `char`, as `ccnl_prefix_to_str_detailed` prints it: a slash is escaped too, on demand. -/
def printByte (escape : Bool) (b : UInt8) : List UInt8 :=
  if escape ∧ b = 47 then [37, 50, 102] else printChar b

/-- `CCNL_MAX_PREFIX_SIZE`. -/
def maxPrefixSize : Nat := 2048

/-! ## Printing -/

/-- `snprintf(buf + len, buflen - len, ...)` of the text `out`, and what is returned is added to
`len`. Where there is no room for it and the zero byte, the caller returns NULL. -/
def sprint (buflen : Nat) (out : List UInt8) (o : Front) : Run Front :=
  if out.length < buflen - o.pos then do
    let o' ← o.app (out ++ [0])
    return ⟨o'.mem, o.pos + out.length⟩
  else throw .bail

/-- The loop over the bytes of a component. It also ends where the text is longer than
`CCNL_MAX_PREFIX_SIZE`. -/
def printBytes (escape : Bool) (buflen : Nat) : List UInt8 → Front → Run Front
  | [], o => return o
  | c :: cs, o => do
    let o ← sprint buflen (printByte escape c) o
    if maxPrefixSize < o.pos then return o
    else printBytes escape buflen cs o

/-- One component. -/
def printComp (escape : Bool) (buflen : Nat) (comp : List UInt8) (o : Front) : Run Front := do
  let o ← sprint buflen [47] o
  printBytes escape buflen comp o

/-- The bytes of a component that are not printed: the header in a CCNx name. -/
def printSkip (suite : Suite) (ccntlvSkip : Bool) : Nat :=
  if ccntlvSkip ∧ suite = .ccntlv then 4 else 0

/-- `ccnl_prefix_to_str_detailed`: the buffer after the call. -/
def prefixToStrDetailed (pr : Prefix) (ccntlvSkip escape : Bool) (buf : List UInt8) (buflen : Nat) :
    Run (List UInt8) := do
  let o ← pr.comps.foldlM (fun o comp =>
    printComp escape buflen (comp.drop (printSkip pr.suite ccntlvSkip)) o) ⟨buf, 0⟩
  return o.mem

/-- `ccnl_prefix_to_path_detailed`: the new buffer. -/
def prefixToPathDetailed (pr : Option Prefix) (ccntlvSkip escape : Bool) : Run (List UInt8) :=
  match pr with
  | none => throw .bail
  | some pr =>
    prefixToStrDetailed pr ccntlvSkip escape (List.replicate (maxPrefixSize + 1) 0) maxPrefixSize

/-- `ccnl_prefix_to_path`. -/
def prefixToPath (pr : Option Prefix) : Run (List UInt8) := prefixToPathDetailed pr true false

/-! ## What is printed -/

/-- A component. -/
def compText (escape : Bool) (comp : List UInt8) : List UInt8 :=
  47 :: comp.flatMap (printByte escape)

/-- A name. -/
def pathText (pr : Prefix) (ccntlvSkip escape : Bool) : List UInt8 :=
  pr.comps.flatMap fun comp => compText escape (comp.drop (printSkip pr.suite ccntlvSkip))

/-- A buffer into which the text `t` has been printed, if there is any. -/
def printed (buf t : List UInt8) : Front :=
  ⟨if t = [] then buf else splice buf 0 (t ++ [0]), t.length⟩

section Text

variable {buf t out cs : List UInt8} {buflen : Nat} {escape : Bool}

theorem printByte_ne_nil (escape : Bool) (b : UInt8) : printByte escape b ≠ [] := by
  unfold printByte printChar
  split
  · exact List.cons_ne_nil _ _
  · dsimp only
    split
    · exact List.cons_ne_nil _ _
    · split <;> exact List.cons_ne_nil _ _

theorem splice_start (mem bs : List UInt8) : splice mem 0 bs = bs ++ mem.drop bs.length := by
  rw [splice, List.take_zero, List.nil_append, Nat.zero_add]

/-- More text, over the zero byte behind the text so far. -/
theorem printed_append (hout : out ≠ []) (hlen : (t ++ out).length < buf.length) :
    splice (printed buf t).mem t.length (out ++ [0]) = (printed buf (t ++ out)).mem := by
  have hne : t ++ out ≠ [] := by simp [hout]
  have hsum : (t ++ out).length = t.length + out.length := List.length_append
  unfold printed
  dsimp only
  rw [if_neg hne]
  split
  · rename_i ht
    subst ht
    rfl
  · have happ : ∀ xs, splice buf 0 (t ++ xs) = splice (splice buf 0 t) t.length xs := fun xs => by
      rw [← splice_append (Nat.zero_le _), Nat.zero_add]
    have hroom : t.length ≤ (splice buf 0 t).length :=
      Nat.le_trans (by omega) (le_length_splice buf 0 t)
    rw [happ [0], splice_splice hroom (by simp), List.append_assoc, happ (out ++ [0])]

theorem sprint_printed (hbuf : buflen ≤ buf.length) (hout : out ≠ []) :
    sprint buflen out (printed buf t) =
      if (t ++ out).length < buflen then .ok (printed buf (t ++ out)) else .error .bail := by
  have hlen : (t ++ out).length = t.length + out.length := List.length_append
  have hiff : out.length < buflen - t.length ↔ (t ++ out).length < buflen := by omega
  unfold sprint
  rw [show (printed buf t).pos = t.length from rfl]
  by_cases h : (t ++ out).length < buflen
  · have hmem : buf.length ≤ (printed buf t).mem.length := by
      unfold printed
      dsimp only
      split
      · exact Nat.le_refl _
      · exact le_length_splice _ _ _
    have hroom : t.length + (out ++ [0]).length ≤ (printed buf t).mem.length := by
      rw [List.length_append, List.length_singleton]
      omega
    have happ : (printed buf t).app (out ++ [0]) = .ok
      ⟨splice (printed buf t).mem t.length (out ++ [0]), t.length + (out ++ [0]).length⟩ := app_eq hroom
    have hmore : splice (printed buf t).mem t.length (out ++ [0]) = (printed buf (t ++ out)).mem :=
      printed_append hout (by omega)
    rw [if_pos h, if_pos (hiff.mpr h), happ, ok_bind, hmore, ← hlen]
    rfl
  · rw [if_neg h, if_neg fun h' => h (hiff.mp h')]
    rfl

/-- The bytes of a component, if the text does not get longer than `CCNL_MAX_PREFIX_SIZE`. -/
theorem printBytes_printed (hbuf : buflen ≤ buf.length) (ht : t.length < buflen)
    (hmax : ∀ n, n < buflen → n ≤ (t ++ cs.flatMap (printByte escape)).length → n ≤ maxPrefixSize) :
    printBytes escape buflen cs (printed buf t) =
      if (t ++ cs.flatMap (printByte escape)).length < buflen then
        .ok (printed buf (t ++ cs.flatMap (printByte escape)))
      else .error .bail := by
  induction cs generalizing t with
  | nil =>
    rw [List.flatMap_nil, List.append_nil, if_pos ht]
    rfl
  | cons c cs ih =>
    rw [List.flatMap_cons, ← List.append_assoc] at hmax ⊢
    rw [printBytes, sprint_printed hbuf (printByte_ne_nil escape c)]
    have hle : (t ++ printByte escape c).length ≤
        (t ++ printByte escape c ++ cs.flatMap (printByte escape)).length := by
      exact (List.prefix_append _ _).length_le
    by_cases h : (t ++ printByte escape c).length < buflen
    · have hpos : ¬ maxPrefixSize < (printed buf (t ++ printByte escape c)).pos :=
        Nat.not_lt.mpr (hmax _ h hle)
      rw [if_pos h, ok_bind, if_neg hpos]
      exact ih h hmax
    · rw [if_neg h, if_neg fun h' => h (Nat.lt_of_le_of_lt hle h')]
      rfl

theorem printComp_printed (hbuf : buflen ≤ buf.length)
    (hmax : ∀ n, n < buflen → n ≤ (t ++ compText escape cs).length → n ≤ maxPrefixSize) :
    printComp escape buflen cs (printed buf t) =
      if (t ++ compText escape cs).length < buflen then .ok (printed buf (t ++ compText escape cs))
      else .error .bail := by
  have hcons : t ++ compText escape cs = t ++ [47] ++ cs.flatMap (printByte escape) := by
    rw [List.append_assoc]
    rfl
  have hle : (t ++ [47]).length ≤ (t ++ [47] ++ cs.flatMap (printByte escape)).length := by
    exact (List.prefix_append _ _).length_le
  rw [hcons] at hmax ⊢
  rw [printComp, sprint_printed hbuf (List.cons_ne_nil _ _)]
  by_cases h : (t ++ [47]).length < buflen
  · rw [if_pos h, ok_bind]
    exact printBytes_printed hbuf h hmax
  · rw [if_neg h, if_neg fun h' => h (Nat.lt_of_le_of_lt hle h')]
    rfl

theorem printComps_printed {comps : List (List UInt8)} (hbuf : buflen ≤ buf.length)
    (ht : t.length < buflen) (hmax : ∀ n, n < buflen →
      n ≤ (t ++ comps.flatMap (compText escape)).length → n ≤ maxPrefixSize) :
    comps.foldlM (fun o comp => printComp escape buflen comp o) (printed buf t) =
      if (t ++ comps.flatMap (compText escape)).length < buflen then
        .ok (printed buf (t ++ comps.flatMap (compText escape)))
      else .error .bail := by
  induction comps generalizing t with
  | nil =>
    rw [List.flatMap_nil, List.append_nil, if_pos ht]
    rfl
  | cons comp comps ih =>
    rw [List.flatMap_cons, ← List.append_assoc] at hmax ⊢
    have hle : (t ++ compText escape comp).length ≤
        (t ++ compText escape comp ++ comps.flatMap (compText escape)).length := by
      exact (List.prefix_append _ _).length_le
    rw [List.foldlM_cons, printComp_printed hbuf fun n hn h => hmax n hn (Nat.le_trans h hle)]
    by_cases h : (t ++ compText escape comp).length < buflen
    · rw [if_pos h, ok_bind]
      exact ih h hmax
    · rw [if_neg h, if_neg fun h' => h (Nat.lt_of_le_of_lt hle h')]
      rfl

/-- A name is printed as a whole if there is room, unless `CCNL_MAX_PREFIX_SIZE` gets in the way. -/
theorem prefixToStrDetailed_eq {pr : Prefix} {skip : Bool} (hbuf : buflen ≤ buf.length)
    (h0 : 0 < buflen)
    (hmax : ∀ n, n < buflen → n ≤ (pathText pr skip escape).length → n ≤ maxPrefixSize) :
    prefixToStrDetailed pr skip escape buf buflen =
      if (pathText pr skip escape).length < buflen then .ok (printed buf (pathText pr skip escape)).mem
      else .error .bail := by
  have htext : pathText pr skip escape =
      (pr.comps.map (·.drop (printSkip pr.suite skip))).flatMap (compText escape) := by
    rw [pathText, List.flatMap_map]
  rw [htext] at hmax ⊢
  have hall := @printComps_printed buf [] buflen escape
    (pr.comps.map fun comp => comp.drop (printSkip pr.suite skip)) hbuf h0
    (by rw [List.nil_append]; exact hmax)
  rw [List.foldlM_map, List.nil_append] at hall
  unfold prefixToStrDetailed
  rw [show (⟨buf, 0⟩ : Front) = printed buf [] from rfl, hall]
  split <;> rfl

/-- What holds of the 256 bytes. -/
theorem forall_byte {P : UInt8 → Prop} (h : ∀ n : Fin 256, P (UInt8.ofNat n)) (b : UInt8) : P b := by
  have := h ⟨b.toNat, b.toNat_lt⟩
  rwa [UInt8.ofNat_toNat] at this

theorem zero_notMem_printByte (escape : Bool) : ∀ b, 0 ∉ printByte escape b := by
  cases escape <;> exact forall_byte (by decide +kernel)

theorem zero_notMem_pathText (pr : Prefix) (skip escape : Bool) : 0 ∉ pathText pr skip escape := by
  simp only [pathText, compText, List.mem_flatMap, List.mem_cons, not_exists, not_and, not_or]
  exact fun comp _ => ⟨by decide, fun b _ => zero_notMem_printByte escape b⟩

theorem rdStr_append {bs rest : List UInt8} (h : 0 ∉ bs) : rdStr (bs ++ 0 :: rest) = .ok bs := by
  have hall : ∀ b ∈ bs, (b ≠ 0 : Bool) = true := fun b hb => by
    have hne : b ≠ 0 := fun h0 => h (h0 ▸ hb)
    simp [hne]
  rw [rdStr, if_pos (by simp), cstr, List.takeWhile_append_of_pos hall]
  simp

/-- The string in a buffer after some text has been printed into it. -/
theorem rdStr_printed (h : 0 ∉ t) (hne : t ≠ []) : rdStr (printed buf t).mem = .ok t := by
  unfold printed
  dsimp only
  rw [if_neg hne, splice_start, List.append_assoc]
  exact rdStr_append h

/-- `ccnl_prefix_to_path` prints a name that has less than `CCNL_MAX_PREFIX_SIZE` characters. -/
theorem prefixToPath_eq (pr : Prefix) :
    (prefixToPath (some pr) >>= rdStr) =
      if (pathText pr true false).length < maxPrefixSize then .ok (pathText pr true false)
      else .error .bail := by
  have hbuf : maxPrefixSize ≤ (List.replicate (maxPrefixSize + 1) (0 : UInt8)).length := by
    rw [List.length_replicate]
    exact Nat.le_succ _
  unfold prefixToPath prefixToPathDetailed
  dsimp only
  rw [prefixToStrDetailed_eq hbuf (by decide) fun n hn _ => Nat.le_of_lt hn]
  split
  · rw [ok_bind]
    by_cases hne : pathText pr true false = []
    · -- nothing is printed into the buffer, which is all zero
      rw [hne]
      rfl
    · exact rdStr_printed (zero_notMem_pathText pr true false) hne
  · rfl

end Text

end Ccnl
