import CcnLite.Lib.Cstring
import CcnLite.Mgmt.Prefixreg
import CcnLite.Rpc.Serialize

/-!
# Expressions on the command line (`ccn-lite-rpc.c`)

`parsePrefixTerm` makes a term of a string in prefix form. Its loop is split into `parsePass`, one
pass over the body, and `parseLoop`, which repeats it. Beside the term it returns what was done on
the way: the constants that were built, and where each pass that went on began and ended.

`Expr` is the notation that the documentation describes, and `Reads` says how the parser takes a
string apart, whatever it makes of it. `parsesRight_iff` compares them.
-/

namespace Ccnl.Command

open CRun

/-! ## The parser -/

/-- What the command finds around it: `filecnt`, and the size of what it reads from the file that
is the argument number `n`, if it can read it. -/
structure Files where
  filecnt : Int
  file : Int → Option Nat

def isDigit (b : UInt8) : Bool := 48 ≤ b && b ≤ 57

def isAlpha (b : UInt8) : Bool := (65 ≤ b && b ≤ 90) || (97 ≤ b && b ≤ 122)

/-- A character of a name. -/
def isNameChar (b : UInt8) : Bool := b == 47 || isAlpha b || isDigit b || b == 95

/-- A character of a string. -/
def isStrChar (b : UInt8) : Bool := b != 0 && b != 34

/-- The value of a number, in 64 bits. -/
def decimalVal (bs : List UInt8) : Nat := bs.foldl (fun v b => u64 (10 * v + (b.toNat - 48))) 0

/-- `strtol(s, NULL, 10)`. -/
def strtol10 (s : List UInt8) : Int :=
  let s := s.dropWhile isSpace
  let (neg, s) := match s with
    | 45 :: s => (true, s)
    | 43 :: s => (false, s)
    | s => (false, s)
  let v : Int := if neg then -digits 10 s else digits 10 s
  max (-2 ^ 63) (min v (2 ^ 63 - 1))

/-- A node of the parser. Its `flatlen` is -1. -/
def cliNode (d : RdrFields) (u aux : Rdr) : Rdr := .node { d with flatlen := 2 ^ 64 - 1 } u aux .null

section Parser

variable (E : Files) (mem : List UInt8)

/-- `loadFile`. The content has a memory of its own. The branch for the number 0 is never reached. -/
def loadFile (cpp : Nat) : Run (Rdr × Nat) := do
  let n := (strtol10 (mem.drop (cpp + 1))).bmod (2 ^ 32)
  let p ← skipWhile mem isDigit (mem.length + 1) (cpp + 1)
  if n < 1 ∨ E.filecnt ≤ n then return (.null, p)
  else
    match E.file n with
    | none => return (.null, p)
    | some len => return (cliNode { type := .bin, data := ⟨0, len⟩ } .null .null, p)

/-- The end of `parseConst`: the constant goes from `cpp` to `p`, and its length goes through an
`int`. -/
def constNode (d : RdrFields) (cpp p : Nat) : Run (Rdr × Nat) :=
  if int32Max < p - cpp then .error .wrap else .ok (cliNode d .null .null, p)

/-- `parseConst`: the node, NULL on failure, and the place behind the constant. -/
def parseConst (cpp : Nat) : Run (Rdr × Nat) := do
  let c ← rd mem cpp
  if c = 38 then loadFile E mem cpp
  else if isAlpha c || c = 47 then do
    let p ← skipWhile mem isNameChar (mem.length + 1) cpp
    constNode { type := .flatname, data := ⟨cpp, p - cpp⟩ } cpp p
  else if isDigit c then do
    let p ← skipWhile mem isDigit (mem.length + 1) cpp
    let val := decimalVal ((mem.drop cpp).takeWhile isDigit)
    constNode { type := .nonnegint, val := val, data := ⟨cpp, 0⟩ } cpp p
  else if c = 34 then do
    let q ← skipWhile mem isStrChar (mem.length + 1) (cpp + 1)
    let p := if (← rd mem q) ≠ 0 then q + 1 else q
    constNode { type := .str, data := ⟨cpp + 1, u64 (2 ^ 64 + (p - cpp) - 2)⟩ } cpp p
  else return (.null, cpp)

/-- The variables of the loop: `*cpp`, `term`, and whether `end` is set. `end` is the last argument
of `term`. -/
structure Loop where
  cpp : Nat
  term : Rdr
  hasEnd : Bool

/-- The end of the loop's body: `t2` becomes the next argument. -/
def Loop.link (l : Loop) (t2 : Rdr) (cpp : Nat) : Loop :=
  match l.term with
  | .null => ⟨cpp, .null, l.hasEnd⟩
  | .node d u aux next => ⟨cpp, .node d u (if l.hasEnd then aux.append t2 else t2) next, t2 ≠ .null⟩

/-- `t2` becomes the term, or the next argument. -/
def Loop.add (l : Loop) (t2 : Rdr) (cpp : Nat) : Loop :=
  if l.term = .null then ⟨cpp, t2, l.hasEnd⟩ else l.link t2 cpp

/-- A constant becomes the function of a new term, or the next argument. -/
def Loop.apply (l : Loop) (t2 : Rdr) (cpp : Nat) : Loop :=
  if l.term = .null then ⟨cpp, cliNode { type := .application } t2 .null, l.hasEnd⟩ else l.link t2 cpp

/-- What a call returns, and what it did: the constants that it built and the passes that went on,
each with its beginning and its end. -/
structure Parsed where
  term : Rdr
  cpp : Nat
  built : List RdrFields
  passes : List (Nat × Nat)

/-- What a pass does: it returns from the call, or goes on with the loop. -/
inductive Pass where
  | ret (p : Parsed)
  | next (l : Loop) (built : List RdrFields) (passes : List (Nat × Nat))

/-- The constant that a call of `parseConst` has built. -/
def constant : Rdr → List RdrFields
  | .null => []
  | .node d .. => [d]

/-- A pass of the loop, behind the spaces. `parse` is the call of `parsePrefixTerm` at an index. -/
def parseItem (parse : Nat → Run Parsed) (l : Loop) (cpp : Nat) : Run Pass := do
  let c ← rd mem cpp
  if c = 41 then return .ret ⟨l.term, cpp, [], []⟩
  else if c = 40 then do
    let t2 ← parse (cpp + 1)
    if t2.term = .null then return .ret t2
    else if (← rd mem t2.cpp) ≠ 41 then return .ret { t2 with term := .null }
    else return .next (l.add t2.term (t2.cpp + 1)) t2.built t2.passes
  else if c = 92 then do
    let (var, p) ← parseConst E mem (cpp + 1)
    -- neither the variable nor the body is checked
    let body ← parse p
    return .next (l.add (cliNode { type := .lambda } var body.term) body.cpp)
      (constant var ++ body.built) body.passes
  else do
    let (t2, p) ← parseConst E mem cpp
    return .next (l.apply t2 p) (constant t2) []

/-- A pass of the loop. -/
def parsePass (parse : Nat → Run Parsed) (l : Loop) : Run Pass := do
  if (← rd mem l.cpp) = 0 then return .ret ⟨l.term, l.cpp, [], []⟩
  else parseItem E mem parse l (← skipWhile mem isSpace (mem.length + 1) l.cpp)

/-- The loop of `parsePrefixTerm`, with fuel for the passes one after the other and one in the
other. -/
def parseLoop : Nat → Loop → Run Parsed
  | 0, _ => .error .fuel
  | k + 1, l => do
    match ← parsePass E mem (fun p => parseLoop k ⟨p, .null, false⟩) l with
    | .ret p => return p
    | .next l' built passes => do
      let p ← parseLoop k l'
      return { p with built := built ++ p.built, passes := (l.cpp, l'.cpp) :: (passes ++ p.passes) }

/-- `parsePrefixTerm` at the start of the string. -/
def parsePrefixTerm (k : Nat) : Run Parsed := parseLoop E mem k ⟨0, .null, false⟩

end Parser

/-! ## The notation -/

/-- What lies between `s` and what is left of it has a length that an `int` holds. -/
def Short (s r : List UInt8) : Prop := s.length ≤ r.length + int32Max

/-- A constant at the front of a string, its type, and what is left behind it. -/
inductive Token : RdrType → List UInt8 → List UInt8 → Prop
  | name {c : UInt8} {t : List UInt8} (hc : isAlpha c ∨ c = 47)
      (hlen : Short (c :: t) (t.dropWhile isNameChar)) :
      Token .flatname (c :: t) (t.dropWhile isNameChar)
  | number {c : UInt8} {t : List UInt8} (hc : isDigit c)
      (hlen : Short (c :: t) (t.dropWhile isDigit)) : Token .nonnegint (c :: t) (t.dropWhile isDigit)
  | str {t r : List UInt8} (hend : t.dropWhile isStrChar = 34 :: r) (hlen : Short (34 :: t) r) :
      Token .str (34 :: t) r
  | file {t : List UInt8} : Token .bin (38 :: t) (t.dropWhile isDigit)

/-- `&NUMBER` of a file that is there. -/
def Readable (E : Files) (s : List UInt8) : Prop :=
  ∃ c t, s = 38 :: c :: t ∧ isDigit c ∧ 1 ≤ digits 10 (c :: t) ∧ (digits 10 (c :: t) : Int) < E.filecnt ∧
    (E.file (digits 10 (c :: t))).isSome

/-- The items of an expression, up to its end or to the closing parenthesis. The flag says whether
there was an item before. -/
inductive Expr (E : Files) : Bool → List UInt8 → List UInt8 → Prop
  | done : Expr E true [] []
  | blank {s : List UInt8} (h : s.dropWhile isSpace = []) : Expr E true s []
  | close {s r : List UInt8} (h : s.dropWhile isSpace = 41 :: r) : Expr E true s (41 :: r)
  | const {t : Bool} {ty : RdrType} {s s₁ r : List UInt8} (htok : Token ty (s.dropWhile isSpace) s₁)
      (hfile : ty = .bin → Readable E (s.dropWhile isSpace)) (hrest : Expr E true s₁ r) : Expr E t s r
  | paren {t : Bool} {s s₁ s₂ r : List UInt8} (h : s.dropWhile isSpace = 40 :: s₁)
      (hinner : Expr E false s₁ (41 :: s₂)) (hrest : Expr E true s₂ r) : Expr E t s r
  | lambda {t : Bool} {s s₁ s₂ s₃ r : List UInt8} (h : s.dropWhile isSpace = 92 :: s₁)
      (hvar : Token .flatname s₁ s₂) (hbody : Expr E false s₂ s₃) (hrest : Expr E true s₃ r) :
      Expr E t s r

/-- The whole string is an expression. -/
def WellFormed (E : Files) (s : List UInt8) : Prop := Expr E false s []

/-- A character that a constant begins with. -/
def BeginsConst (c : UInt8) : Prop := c = 38 ∨ isAlpha c ∨ c = 47 ∨ isDigit c ∨ c = 34

/-- How the parser takes a string apart: the call, or the rest of its loop, on `s` stops before `r`.
The first flag says whether there is a term before, the second one whether there is one at the end.
A constant that the loop comes to is a token, and so is the variable of a lambda unless it is
missing. -/
inductive Reads : Bool → List UInt8 → Bool → List UInt8 → Prop
  | done {t : Bool} : Reads t [] t []
  | blank {t : Bool} {s : List UInt8} (hs : s ≠ []) (h : s.dropWhile isSpace = []) : Reads t s true []
  | close {t : Bool} {s r : List UInt8} (h : s.dropWhile isSpace = 41 :: r) : Reads t s t (41 :: r)
  | const {t v : Bool} {ty : RdrType} {s s₁ r : List UInt8} (htok : Token ty (s.dropWhile isSpace) s₁)
      (hrest : Reads true s₁ v r) : Reads t s v r
  | empty {t : Bool} {s s₁ r : List UInt8} (h : s.dropWhile isSpace = 40 :: s₁)
      (hinner : Reads false s₁ false r) : Reads t s false r
  | unclosed {t : Bool} {s s₁ : List UInt8} (h : s.dropWhile isSpace = 40 :: s₁)
      (hinner : Reads false s₁ true []) : Reads t s false []
  | paren {t v : Bool} {s s₁ s₂ r : List UInt8} (h : s.dropWhile isSpace = 40 :: s₁)
      (hinner : Reads false s₁ true (41 :: s₂)) (hrest : Reads true s₂ v r) : Reads t s v r
  | lambda {t u v : Bool} {s s₁ s₂ s₃ r : List UInt8} (h : s.dropWhile isSpace = 92 :: s₁)
      (hvar : (∃ ty, Token ty s₁ s₂) ∨ s₂ = s₁ ∧ ∀ c ∈ s₁.head?, ¬ BeginsConst c)
      (hbody : Reads false s₂ u s₃) (hrest : Reads true s₃ v r) : Reads t s v r

/-- The parser gives up on the string. -/
def Rejected (s : List UInt8) : Prop := ∃ r, Reads false s false r

/-- The length of a name or a string is the number of its characters. -/
def LengthOk (s : List UInt8) (d : RdrFields) : Prop :=
  (d.type = .flatname → d.data.len = ((s.drop d.data.off).takeWhile isNameChar).length) ∧
    (d.type = .str → d.data.len = ((s.drop d.data.off).takeWhile isStrChar).length)

/-- What is expected of `parsePrefixTerm` on the string `s`: it ends, without a read behind the NUL
byte, each pass that goes on consumes a character, the lengths are right, and where `s` is no
expression there is no term. -/
def ParsesRight (E : Files) (s : List UInt8) : Prop :=
  ∃ k p, parsePrefixTerm E (s ++ [0]) k = .ok p ∧ (∀ x ∈ p.passes, x.1 < x.2) ∧
    (∀ d ∈ p.built, LengthOk s d) ∧ (¬ WellFormed E s → p.term = .null)

theorem Expr.reads {E : Files} {t : Bool} {s r : List UInt8} (h : Expr E t s r) : Reads t s true r := by
  induction h with
  | done => exact .done
  | @blank s h =>
    by_cases hs : s = []
    · subst hs
      exact .done
    · exact .blank hs h
  | close h => exact .close h
  | const htok _ _ ih => exact .const htok ih
  | paren h _ _ ihinner ihrest => exact .paren h ihinner ihrest
  | lambda h hvar _ _ ihbody ihrest => exact .lambda h (.inl ⟨_, hvar⟩) ihbody ihrest

/-- A call that ends with a term stops at the end or at a parenthesis. -/
theorem Reads.end_of_term {t v : Bool} {s r : List UInt8} (h : Reads t s v r) (hv : v = true) :
    r = [] ∨ ∃ r₁, r = 41 :: r₁ := by
  induction h with
  | done => exact .inl rfl
  | blank => exact .inl rfl
  | close => exact .inr ⟨_, rfl⟩
  | const _ _ ih => exact ih hv
  | empty => cases hv
  | unclosed => cases hv
  | paren _ _ _ _ ih => exact ih hv
  | lambda _ _ _ _ _ ih => exact ih hv

/-! ## Constants -/

theorem constNode_eq_ok {d : RdrFields} {p q : Nat} {x : Rdr × Nat} :
    constNode d p q = .ok x ↔ q - p ≤ int32Max ∧ x = (cliNode d .null .null, q) := by
  unfold constNode
  split
  · rename_i h
    exact ⟨nofun, fun h' => absurd h (Nat.not_lt.mpr h'.1)⟩
  · rename_i h
    rw [Except.ok.injEq]
    exact ⟨fun h' => ⟨Nat.not_lt.mp h, h'.symm⟩, fun h' => h'.2.symm⟩

theorem alpha_class : ∀ c : UInt8, (isAlpha c ∨ c = 47) → c ≠ 38 ∧ isNameChar c :=
  forall_byte (by decide +kernel)

theorem digit_class : ∀ c : UInt8, isDigit c → c ≠ 38 ∧ ¬ (isAlpha c ∨ c = 47) :=
  forall_byte (by decide +kernel)

section Const

variable {E : Files} {s r t : List UInt8} {p : Nat} {c : UInt8}

theorem skip_ok (h : Points s p r) {f : UInt8 → Bool} (hf : f 0 = false) :
    ∃ q, skipWhile (s ++ [0]) f ((s ++ [0]).length + 1) p = .ok q ∧
      q = p + (r.takeWhile f).length ∧ Points s q (r.dropWhile f) := by
  have hlen := h.length
  have := h.skipWhile hf (k := (s ++ [0]).length + 1) (by rw [List.length_append]; omega)
  exact ⟨_, this.1, rfl, this.2⟩

theorem parseConst_name (h : Points s p (c :: t)) (hc : isAlpha c ∨ c = 47) :
    ∃ q, parseConst E (s ++ [0]) p = constNode { type := .flatname, data := ⟨p, q - p⟩ } p q ∧
      q = p + ((c :: t).takeWhile isNameChar).length ∧ Points s q (t.dropWhile isNameChar) := by
  obtain ⟨hne, hname⟩ := alpha_class c hc
  obtain ⟨q, hskip, hq, hpts⟩ := skip_ok h (f := isNameChar) (by decide)
  rw [List.dropWhile_cons_of_pos hname] at hpts
  refine ⟨q, ?_, hq, hpts⟩
  rw [parseConst, h.rd_cons, ok_bind, if_neg hne, if_pos (by simpa using hc), hskip, ok_bind]

theorem parseConst_number (h : Points s p (c :: t)) (hc : isDigit c) :
    ∃ q val, parseConst E (s ++ [0]) p =
        constNode { type := .nonnegint, val := val, data := ⟨p, 0⟩ } p q ∧
      p < q ∧ Points s q (t.dropWhile isDigit) := by
  obtain ⟨hne, halpha⟩ := digit_class c hc
  obtain ⟨q, hskip, hq, hpts⟩ := skip_ok h (f := isDigit) (by decide)
  rw [List.takeWhile_cons_of_pos hc, List.length_cons] at hq
  rw [List.dropWhile_cons_of_pos hc] at hpts
  refine ⟨q, decimalVal (((s ++ [0]).drop p).takeWhile isDigit), ?_, by omega, hpts⟩
  rw [parseConst, h.rd_cons, ok_bind, if_neg hne, if_neg (by simpa using halpha), if_pos hc, hskip,
    ok_bind]

/-- A string: the length is that between the quotes when there is a closing one, and one less than
the number of characters otherwise. -/
theorem parseConst_str (h : Points s p (34 :: t)) :
    ∃ q len, parseConst E (s ++ [0]) p =
        constNode { type := .str, data := ⟨p + 1, len⟩ } p q ∧
      (∀ r, t.dropWhile isStrChar = 34 :: r →
        Points s q r ∧ q - p = (t.takeWhile isStrChar).length + 2 ∧ len = u64 (2 ^ 64 + (q - p) - 2)) ∧
      (t.dropWhile isStrChar = [] →
        q - p = (t.takeWhile isStrChar).length + 1 ∧ len = u64 (2 ^ 64 + (q - p) - 2)) := by
  obtain ⟨q, hskip, hq, hpts⟩ := skip_ok h.next (f := isStrChar) (by decide)
  have hrun : ∀ b, rd (s ++ [0]) q = .ok b → parseConst E (s ++ [0]) p =
      constNode { type := .str,
                  data := ⟨p + 1, u64 (2 ^ 64 + ((if b ≠ 0 then q + 1 else q) - p) - 2)⟩ } p
        (if b ≠ 0 then q + 1 else q) := fun b hb => by
    rw [parseConst, h.rd_cons, ok_bind, if_neg (by decide), if_neg (by decide), if_neg (by decide),
      if_pos rfl, hskip, ok_bind, hb, ok_bind]
  cases hend : t.dropWhile isStrChar with
  | nil =>
    rw [hend] at hpts
    refine ⟨_, _, hrun 0 hpts.rd_nil, nofun, fun _ => ⟨?_, rfl⟩⟩
    rw [if_neg (by decide)]
    omega
  | cons b r =>
    rw [hend] at hpts
    refine ⟨_, _, hrun b hpts.rd_cons, fun r' hr => ?_, nofun⟩
    cases hr
    rw [if_pos (by decide)]
    exact ⟨hpts.next, by omega, rfl⟩

/-- `&`: the digits are skipped, whether there is such a file or not. -/
theorem parseConst_file (h : Points s p (38 :: t)) :
    ∃ t2 q, parseConst E (s ++ [0]) p = .ok (t2, q) ∧ p < q ∧ Points s q (t.dropWhile isDigit) ∧
      ∀ d ∈ constant t2, d.type = .bin := by
  obtain ⟨q, hskip, hq, hpts⟩ := skip_ok h.next (f := isDigit) (by decide)
  rw [parseConst, h.rd_cons, ok_bind, if_pos rfl, loadFile, hskip, ok_bind]
  split
  · exact ⟨_, q, rfl, by omega, hpts, fun d hd => nomatch hd⟩
  · split
    · exact ⟨_, q, rfl, by omega, hpts, fun d hd => nomatch hd⟩
    · exact ⟨_, q, rfl, by omega, hpts, fun d hd => by rw [List.mem_singleton.mp hd]⟩

/-- Without a constant nothing is consumed. -/
theorem parseConst_missing (h : Points s p r) (hr : ∀ c ∈ r.head?, ¬ BeginsConst c) :
    parseConst E (s ++ [0]) p = .ok (.null, p) := by
  have hread : ∃ c, rd (s ++ [0]) p = .ok c ∧ ¬ BeginsConst c := by
    cases r with
    | nil => exact ⟨0, h.rd_nil, by simp [BeginsConst, isAlpha, isDigit]⟩
    | cons c r => exact ⟨c, h.rd_cons, hr c rfl⟩
  obtain ⟨c, hc, hnot⟩ := hread
  unfold BeginsConst at hnot
  simp only [not_or] at hnot
  obtain ⟨h38, halpha, h47, hdigit, h34⟩ := hnot
  rw [parseConst, hc, ok_bind, if_neg h38, if_neg (by simp [halpha, h47]), if_neg hdigit, if_neg h34]
  rfl

/-- The length of a token, seen in the string. -/
theorem short_iff {q : Nat} (h : Points s p r) (h' : Points s q t) : Short r t ↔ q - p ≤ int32Max := by
  have := h.length
  have := h'.length
  unfold Short
  omega

theorem lengthOk_name {q : Nat} {d : RdrFields} (h : Points s p r) (htype : d.type = .flatname)
    (hdata : d.data = ⟨p, q - p⟩) (hq : q = p + (r.takeWhile isNameChar).length) : LengthOk s d := by
  refine ⟨fun _ => ?_, fun h' => absurd (htype.symm.trans h') (by decide)⟩
  rw [hdata, h.drop]
  show q - p = _
  omega

theorem lengthOk_str {d : RdrFields} (h : Points s (p + 1) t) (htype : d.type = .str)
    (hoff : d.data.off = p + 1) :
    LengthOk s d ↔ d.data.len = (t.takeWhile isStrChar).length := by
  unfold LengthOk
  rw [hoff, h.drop]
  exact ⟨fun hd => hd.2 htype,
    fun hd => ⟨fun h' => absurd (htype.symm.trans h') (by decide), fun _ => hd⟩⟩

theorem lengthOk_other {d : RdrFields} (hname : d.type ≠ .flatname) (hstr : d.type ≠ .str) :
    LengthOk s d :=
  ⟨fun h => absurd h hname, fun h => absurd h hstr⟩

/-- A token is consumed, and its length is right. -/
theorem parseConst_token {ty : RdrType} (h : Points s p r) (htok : Token ty r t) :
    ∃ t2 q, parseConst E (s ++ [0]) p = .ok (t2, q) ∧ p < q ∧ Points s q t ∧
      ∀ d ∈ constant t2, LengthOk s d := by
  cases htok with
  | @name c t hc hlen =>
    obtain ⟨q, hrun, hq, hpts⟩ := parseConst_name (E := E) h hc
    have hpos : 0 < ((c :: t).takeWhile isNameChar).length := by
      rw [List.takeWhile_cons_of_pos (alpha_class c hc).2]
      exact Nat.succ_pos _
    rw [constNode, if_neg (Nat.not_lt.mpr ((short_iff h hpts).mp hlen))] at hrun
    refine ⟨_, q, hrun, by omega, hpts, fun d hd => ?_⟩
    rw [List.mem_singleton.mp hd]
    exact lengthOk_name h rfl rfl hq
  | number hc hlen =>
    obtain ⟨q, val, hrun, hq, hpts⟩ := parseConst_number (E := E) h hc
    rw [constNode, if_neg (Nat.not_lt.mpr ((short_iff h hpts).mp hlen))] at hrun
    refine ⟨_, q, hrun, hq, hpts, fun d hd => ?_⟩
    rw [List.mem_singleton.mp hd]
    exact lengthOk_other nofun nofun
  | str hend hlen =>
    obtain ⟨q, len, hrun, hclosed, -⟩ := parseConst_str (E := E) h
    obtain ⟨hpts, hq, hval⟩ := hclosed _ hend
    have hshort := (short_iff h hpts).mp hlen
    rw [constNode, if_neg (Nat.not_lt.mpr hshort)] at hrun
    refine ⟨_, q, hrun, by omega, hpts, fun d hd => ?_⟩
    rw [List.mem_singleton.mp hd, lengthOk_str h.next rfl rfl]
    show len = _
    unfold int32Max at hshort
    unfold u64 at hval
    omega
  | file =>
    obtain ⟨t2, q, hrun, hq, hpts, hbin⟩ := parseConst_file (E := E) h
    exact ⟨t2, q, hrun, hq, hpts, fun d hd =>
      lengthOk_other (by rw [hbin d hd]; nofun) (by rw [hbin d hd]; nofun)⟩

/-- And nothing else is, with a right length. -/
theorem parseConst_cases (hs : 0 ∉ s) (h : Points s p r) {t2 : Rdr} {q : Nat}
    (hok : parseConst E (s ++ [0]) p = .ok (t2, q)) (hlen : ∀ d ∈ constant t2, LengthOk s d) :
    (∃ ty t, Token ty r t ∧ Points s q t ∧ p < q) ∨ q = p ∧ ∀ c ∈ r.head?, ¬ BeginsConst c := by
  by_cases hr : ∀ c ∈ r.head?, ¬ BeginsConst c
  · rw [parseConst_missing h hr] at hok
    cases hok
    exact .inr ⟨rfl, hr⟩
  cases r with
  | nil => exact absurd (fun c hc => nomatch hc) hr
  | cons c t =>
    have hbegin : BeginsConst c := by
      by_contra hnot
      exact hr fun c' hc' => by cases hc'; exact hnot
    left
    by_cases halpha : isAlpha c ∨ c = 47
    · obtain ⟨q', hrun, hq, hpts⟩ := parseConst_name (E := E) h halpha
      obtain ⟨hshort, hx⟩ := constNode_eq_ok.mp (hrun.symm.trans hok)
      cases hx
      rw [List.takeWhile_cons_of_pos (alpha_class _ halpha).2, List.length_cons] at hq
      exact ⟨_, _, .name halpha ((short_iff h hpts).mpr hshort), hpts, by omega⟩
    rcases hbegin with rfl | halpha' | h47 | hdigit | rfl
    · obtain ⟨t2', q', hrun, hq, hpts, -⟩ := parseConst_file (E := E) h
      rw [hrun] at hok
      cases hok
      exact ⟨_, _, .file, hpts, hq⟩
    · exact absurd (.inl halpha') halpha
    · exact absurd (.inr h47) halpha
    · obtain ⟨q', val, hrun, hq, hpts⟩ := parseConst_number (E := E) h hdigit
      obtain ⟨hshort, hx⟩ := constNode_eq_ok.mp (hrun.symm.trans hok)
      cases hx
      exact ⟨_, _, .number hdigit ((short_iff h hpts).mpr hshort), hpts, hq⟩
    · obtain ⟨q', len, hrun, hclosed, hopen⟩ := parseConst_str (E := E) h
      obtain ⟨hshort, hx⟩ := constNode_eq_ok.mp (hrun.symm.trans hok)
      cases hx
      have hlen' := (lengthOk_str h.next rfl rfl).mp (hlen _ (List.mem_singleton_self _))
      cases hend : t.dropWhile isStrChar with
      | nil =>
        -- without the closing quote the length is off by one
        obtain ⟨hq, hval⟩ := hopen hend
        change len = _ at hlen'
        unfold int32Max at hshort
        unfold u64 at hval
        omega
      | cons b r =>
        have hb : b = 34 := by
          have hstop := List.head?_dropWhile_not isStrChar t
          rw [hend] at hstop
          have hmem : b ∈ s := h.next.subset ((List.dropWhile_sublist _).subset
            (hend ▸ List.mem_cons_self))
          have hne : b ≠ 0 := fun h => hs (h ▸ hmem)
          simpa [isStrChar, hne] using hstop
        subst hb
        obtain ⟨hpts, hq, -⟩ := hclosed r hend
        exact ⟨_, _, .str hend ((short_iff h hpts).mpr hshort), hpts, by omega⟩

end Const

/-! ## The loop -/

section Loop

variable {l : Loop} {t2 : Rdr} {p : Nat}

@[simp] theorem Loop.cpp_link : (l.link t2 p).cpp = p := by
  unfold link
  split <;> rfl

@[simp] theorem Loop.cpp_add : (l.add t2 p).cpp = p := by
  unfold add
  split
  · rfl
  · exact cpp_link

@[simp] theorem Loop.cpp_apply : (l.apply t2 p).cpp = p := by
  unfold apply
  split
  · rfl
  · exact cpp_link

theorem Loop.term_link (h : l.term ≠ .null) : (l.link t2 p).term ≠ .null := by
  unfold link
  split
  · contradiction
  · nofun

theorem Loop.term_add (h : t2 ≠ .null) : (l.add t2 p).term ≠ .null := by
  unfold add
  split
  · exact h
  · rename_i hterm
    exact term_link hterm

theorem Loop.term_apply : (l.apply t2 p).term ≠ .null := by
  unfold apply
  split
  · nofun
  · rename_i hterm
    exact term_link hterm

end Loop

/-- A byte that is no character of the notation. -/
def Unknown (c : UInt8) : Prop := ¬ BeginsConst c ∧ isSpace c = false ∧ c ≠ 40 ∧ c ≠ 41 ∧ c ≠ 92

instance : DecidablePred BeginsConst := fun _ => inferInstanceAs (Decidable (_ ∨ _))

theorem begins_class : ∀ c : UInt8, BeginsConst c → c ≠ 40 ∧ c ≠ 41 ∧ c ≠ 92 :=
  forall_byte (by decide +kernel)

/-- What a call returns, and did, when it takes a string apart up to `r`. -/
structure Parsed.Fits (s : List UInt8) (v : Bool) (r : List UInt8) (out : Parsed) : Prop where
  stop : Points s out.cpp r
  term : out.term ≠ .null ↔ v = true
  passes : ∀ x ∈ out.passes, x.1 < x.2
  built : ∀ d ∈ out.built, LengthOk s d

section Passes

variable {E : Files} {s r t : List UInt8} {l : Loop} {p q k : Nat} {c : UInt8}
  {g : Nat → Run Parsed}

/-- The spaces before an item are skipped. -/
theorem parsePass_item (hs : 0 ∉ s) (h : Points s l.cpp (c :: t)) :
    ∃ q, parsePass E (s ++ [0]) g l = parseItem E (s ++ [0]) g l q ∧
      l.cpp ≤ q ∧ Points s q ((c :: t).dropWhile isSpace) := by
  have hc : c ≠ 0 := fun hc => hs (hc ▸ h.subset List.mem_cons_self)
  obtain ⟨q, hskip, hq, hpts⟩ := skip_ok h (f := isSpace) (by decide)
  refine ⟨q, ?_, by omega, hpts⟩
  rw [parsePass, h.rd_cons, ok_bind, if_neg hc, hskip, ok_bind]

theorem parsePass_nil (h : Points s l.cpp []) :
    parsePass E (s ++ [0]) g l = .ok (.ret ⟨l.term, l.cpp, [], []⟩) := by
  rw [parsePass, h.rd_nil, ok_bind, if_pos rfl]
  rfl

theorem parseItem_close (h : Points s p (41 :: t)) :
    parseItem E (s ++ [0]) g l p = .ok (.ret ⟨l.term, p, [], []⟩) := by
  rw [parseItem, h.rd_cons, ok_bind, if_pos rfl]
  rfl

/-- Everything but a parenthesis and a backslash is left to `parseConst`. -/
theorem parseItem_const (h : Points s p r) (hr : ∀ c ∈ r.head?, c ≠ 40 ∧ c ≠ 41 ∧ c ≠ 92) :
    parseItem E (s ++ [0]) g l p = do
      let (t2, q) ← parseConst E (s ++ [0]) p
      return .next (l.apply t2 q) (constant t2) [] := by
  have hread : ∃ c, rd (s ++ [0]) p = .ok c ∧ c ≠ 40 ∧ c ≠ 41 ∧ c ≠ 92 := by
    cases r with
    | nil => exact ⟨0, h.rd_nil, by decide⟩
    | cons c r => exact ⟨c, h.rd_cons, hr c rfl⟩
  obtain ⟨c, hc, h40, h41, h92⟩ := hread
  rw [parseItem, hc, ok_bind, if_neg h41, if_neg h40, if_neg h92]

/-- Where the string goes on with an unknown character the loop never ends. -/
theorem parseLoop_stuck (hs : 0 ∉ s) (hc : Unknown c) (h : Points s l.cpp (c :: t)) :
    parseLoop E (s ++ [0]) k l = .error .fuel := by
  obtain ⟨hbegin, hspace, hother⟩ := hc
  induction k generalizing l with
  | zero => rfl
  | succ k ih =>
    obtain ⟨q, hpass, -, hpts⟩ := parsePass_item (E := E) (g := fun p =>
      parseLoop E (s ++ [0]) k ⟨p, .null, false⟩) hs h
    rw [List.dropWhile_cons_of_neg (by simp [hspace])] at hpts
    have hhead : ∀ c' ∈ (c :: t).head?, c' ≠ 40 ∧ c' ≠ 41 ∧ c' ≠ 92 := fun c' hc' => by
      cases hc'
      exact hother
    rw [parseItem_const hpts hhead, parseConst_missing hpts fun c' hc' => by
      cases hc'
      exact hbegin] at hpass
    have hnext := ih (l := l.apply .null q) (by rw [Loop.cpp_apply]; exact hpts)
    rw [parseLoop, hpass]
    simp only [ok_bind, pure_bind, hnext]
    rfl

/-- A pass that goes on, and what the loop does then. -/
theorem parseLoop_next {l' : Loop} {built : List RdrFields} {passes : List (Nat × Nat)} {v : Bool}
    (hpass : parsePass E (s ++ [0]) (fun p => parseLoop E (s ++ [0]) k ⟨p, .null, false⟩) l =
      .ok (.next l' built passes))
    (hlt : l.cpp < l'.cpp) (hbuilt : ∀ d ∈ built, LengthOk s d) (hpasses : ∀ x ∈ passes, x.1 < x.2)
    (hrest : ∃ out, parseLoop E (s ++ [0]) k l' = .ok out ∧ out.Fits s v r) :
    ∃ out, parseLoop E (s ++ [0]) (k + 1) l = .ok out ∧ out.Fits s v r := by
  obtain ⟨out, hout, hfits⟩ := hrest
  refine ⟨{ out with built := built ++ out.built,
                     passes := (l.cpp, l'.cpp) :: (passes ++ out.passes) }, ?_,
    hfits.stop, hfits.term, fun x hx => ?_, fun d hd => ?_⟩
  · rw [parseLoop, hpass, ok_bind]
    dsimp only
    rw [hout]
    rfl
  · rcases List.mem_cons.mp hx with rfl | hx
    · exact hlt
    · exact (List.mem_append.mp hx).elim (hpasses x) (hfits.passes x)
  · exact (List.mem_append.mp hd).elim (hbuilt d) (hfits.built d)

theorem Token.begins {ty : RdrType} (h : Token ty r t) : ∃ c t', r = c :: t' ∧ BeginsConst c := by
  cases h with
  | name hc => exact ⟨_, _, rfl, hc.elim (fun h => .inr (.inl h)) fun h => .inr (.inr (.inl h))⟩
  | number hc => exact ⟨_, _, rfl, .inr (.inr (.inr (.inl hc)))⟩
  | str => exact ⟨_, _, rfl, .inr (.inr (.inr (.inr rfl)))⟩
  | file => exact ⟨_, _, rfl, .inl rfl⟩

theorem Token.head {ty : RdrType} (h : Token ty r t) : ∀ c ∈ r.head?, c ≠ 40 ∧ c ≠ 41 ∧ c ≠ 92 := by
  obtain ⟨c, t', rfl, hc⟩ := h.begins
  intro c' hc'
  cases hc'
  exact begins_class c hc

theorem length_dropWhile_le (f : UInt8 → Bool) (r : List UInt8) : (r.dropWhile f).length ≤ r.length :=
  (List.dropWhile_sublist f).length_le

theorem Token.length_lt {ty : RdrType} (h : Token ty r t) : t.length < r.length := by
  cases h with
  | name | number | file => exact Nat.lt_succ_of_le (length_dropWhile_le _ _)
  | @str t r hend _ =>
    have := length_dropWhile_le isStrChar t
    rw [hend] at this
    simp only [List.length_cons] at this ⊢
    omega

theorem Reads.length_le {b v : Bool} (h : Reads b r v t) : t.length ≤ r.length := by
  induction h with
  | done => exact Nat.le_refl _
  | blank => exact Nat.zero_le _
  | @close b r t h =>
    have := length_dropWhile_le isSpace r
    rwa [h] at this
  | @const b v ty r t r' htok _ ih =>
    have := length_dropWhile_le isSpace r
    have := htok.length_lt
    omega
  | @empty b r t r' h _ ih =>
    have := length_dropWhile_le isSpace r
    rw [h, List.length_cons] at this
    omega
  | unclosed => exact Nat.zero_le _
  | @paren b v r s₁ s₂ t h _ _ ihinner ihrest =>
    have := length_dropWhile_le isSpace r
    rw [h] at this
    simp only [List.length_cons] at this ihinner
    omega
  | @lambda b u v r s₁ s₂ s₃ t h hvar _ _ ihbody ihrest =>
    have := length_dropWhile_le isSpace r
    rw [h, List.length_cons] at this
    have hle : s₂.length ≤ s₁.length := by
      rcases hvar with ⟨ty, htok⟩ | ⟨rfl, -⟩
      · exact Nat.le_of_lt htok.length_lt
      · exact Nat.le_refl _
    omega

theorem parseLoop_nil {b : Bool} (h : Points s l.cpp []) (hterm : l.term ≠ .null ↔ b = true)
    (hk : 0 < k) : ∃ out, parseLoop E (s ++ [0]) k l = .ok out ∧ out.Fits s b [] := by
  obtain ⟨k, rfl⟩ : ∃ j, k = j + 1 := ⟨k - 1, by omega⟩
  refine ⟨⟨l.term, l.cpp, [], []⟩, ?_, h, hterm, nofun, nofun⟩
  rw [parseLoop, parsePass_nil h, ok_bind]
  rfl

/-- The first pass on a string that is not empty, up to its item. -/
theorem pass_item (hs : 0 ∉ s) (h : Points s l.cpp r) (hr : r ≠ []) (hk : r.length < k) :
    ∃ j q, k = j + 1 ∧ l.cpp ≤ q ∧ Points s q (r.dropWhile isSpace) ∧
      parsePass E (s ++ [0]) (fun p => parseLoop E (s ++ [0]) j ⟨p, .null, false⟩) l =
        parseItem E (s ++ [0]) (fun p => parseLoop E (s ++ [0]) j ⟨p, .null, false⟩) l q := by
  obtain ⟨c, r, rfl⟩ := List.exists_cons_of_ne_nil hr
  obtain ⟨q, hpass, hle, hq⟩ := parsePass_item (E := E) (g := fun p =>
    parseLoop E (s ++ [0]) (k - 1) ⟨p, .null, false⟩) hs h
  exact ⟨k - 1, q, by omega, hle, hq, hpass⟩

/-- The first pass where a character waits behind the blanks. -/
theorem pass_head {c : UInt8} (hs : 0 ∉ s) (h : Points s l.cpp r)
    (hc : r.dropWhile isSpace = c :: t) (hk : r.length < k) :
    ∃ j q, k = j + 1 ∧ l.cpp ≤ q ∧ Points s q (c :: t) ∧ t.length < j ∧
      parsePass E (s ++ [0]) (fun p => parseLoop E (s ++ [0]) j ⟨p, .null, false⟩) l =
        parseItem E (s ++ [0]) (fun p => parseLoop E (s ++ [0]) j ⟨p, .null, false⟩) l q := by
  have hr : r ≠ [] := by
    rintro rfl
    cases hc
  obtain ⟨j, q, rfl, hle, hq, hpass⟩ := pass_item (E := E) hs h hr hk
  have hlen := length_dropWhile_le isSpace r
  rw [hc, List.length_cons] at hlen
  exact ⟨j, q, rfl, hle, hc ▸ hq, by omega, hpass⟩

/-- Where a pass returns, the loop returns the same. -/
theorem parseLoop_ret {out : Parsed}
    (hpass : parsePass E (s ++ [0]) (fun p => parseLoop E (s ++ [0]) k ⟨p, .null, false⟩) l =
      .ok (.ret out)) :
    parseLoop E (s ++ [0]) (k + 1) l = .ok out := by
  rw [parseLoop, hpass]
  rfl

theorem fresh_term (p : Nat) : (⟨p, .null, false⟩ : Loop).term ≠ .null ↔ false = true :=
  ⟨fun h => absurd rfl h, nofun⟩

theorem Reads.of_nil {b v : Bool} (h : Reads b [] v r) : v = b ∧ r = [] := by
  cases h with
  | done => exact ⟨rfl, rfl⟩
  | blank hs => exact absurd rfl hs
  | close h => cases h
  | const htok =>
    obtain ⟨c, t', h, -⟩ := htok.begins
    cases h
  | empty h => cases h
  | unclosed h => cases h
  | paren h => cases h
  | lambda h => cases h

/-- A string that is taken apart so is parsed, with more fuel than it has characters. -/
theorem Reads.parses {b v : Bool} (hs : 0 ∉ s) (h : Reads b r v t) (hpts : Points s l.cpp r)
    (hterm : l.term ≠ .null ↔ b = true) (hk : r.length < k) :
    ∃ out, parseLoop E (s ++ [0]) k l = .ok out ∧ out.Fits s v t := by
  induction h generalizing l k with
  | done => exact parseLoop_nil hpts hterm (by omega)
  | @blank b r hr hspace =>
    obtain ⟨k, q, rfl, hle, hq, hpass⟩ := pass_item (E := E) hs hpts hr hk
    rw [hspace] at hq
    rw [parseItem_const hq nofun, parseConst_missing hq nofun] at hpass
    have hpos := List.length_pos_iff.mpr hr
    have hlt : l.cpp < q := by
      have := hpts.length
      have := hq.length
      rw [List.length_nil] at this
      omega
    exact parseLoop_next hpass (by rwa [Loop.cpp_apply]) nofun nofun
      (parseLoop_nil (by rwa [Loop.cpp_apply]) (iff_of_true Loop.term_apply rfl) (by omega))
  | @close b r t h =>
    obtain ⟨k, q, rfl, hle, hq, -, hpass⟩ := pass_head (E := E) hs hpts h hk
    rw [parseItem_close hq] at hpass
    exact ⟨⟨l.term, q, [], []⟩, parseLoop_ret hpass, hq, hterm, nofun, nofun⟩
  | @const b v ty r s₁ t htok _ ih =>
    obtain ⟨c, t', hhead, -⟩ := htok.begins
    obtain ⟨k, q, rfl, hle, hq, hk, hpass⟩ := pass_head (E := E) hs hpts hhead hk
    rw [← hhead] at hq
    obtain ⟨t2, q', hrun, hlt, hq', hlen⟩ := parseConst_token (E := E) hq htok
    rw [parseItem_const hq htok.head, hrun] at hpass
    have hshort := htok.length_lt
    rw [hhead, List.length_cons] at hshort
    exact parseLoop_next hpass (by rw [Loop.cpp_apply]; omega) hlen nofun
      (ih (by rwa [Loop.cpp_apply]) (iff_of_true Loop.term_apply rfl) (by omega))
  | @empty b r s₁ t h _ ih =>
    obtain ⟨k, q, rfl, hle, hq, hk, hpass⟩ := pass_head (E := E) hs hpts h hk
    obtain ⟨out, hrun, hfits⟩ := ih (l := ⟨q + 1, .null, false⟩) hq.next (fresh_term _) hk
    have hnull : out.term = .null := by
      by_contra hne
      exact absurd (hfits.term.mp hne) nofun
    rw [parseItem, hq.rd_cons, ok_bind, if_neg (by decide), if_pos rfl, hrun, ok_bind,
      if_pos hnull] at hpass
    exact ⟨out, parseLoop_ret hpass, hfits⟩
  | @unclosed b r s₁ h _ ih =>
    obtain ⟨k, q, rfl, hle, hq, hk, hpass⟩ := pass_head (E := E) hs hpts h hk
    obtain ⟨out, hrun, hfits⟩ := ih (l := ⟨q + 1, .null, false⟩) hq.next (fresh_term _) hk
    rw [parseItem, hq.rd_cons, ok_bind, if_neg (by decide), if_pos rfl, hrun, ok_bind,
      if_neg (hfits.term.mpr rfl), hfits.stop.rd_nil, ok_bind, if_pos (by decide)] at hpass
    exact ⟨{ out with term := .null }, parseLoop_ret hpass, hfits.stop,
      ⟨fun h => absurd rfl h, nofun⟩, hfits.passes, hfits.built⟩
  | @paren b v r s₁ s₂ t h hinner _ ihinner ihrest =>
    obtain ⟨k, q, rfl, hle, hq, hk, hpass⟩ := pass_head (E := E) hs hpts h hk
    obtain ⟨out, hrun, hfits⟩ := ihinner (l := ⟨q + 1, .null, false⟩) hq.next (fresh_term _) hk
    have hin := hinner.length_le
    have hq₁ := hq.length
    have hout := hfits.stop.length
    rw [List.length_cons] at hin hq₁ hout
    rw [parseItem, hq.rd_cons, ok_bind, if_neg (by decide), if_pos rfl, hrun, ok_bind,
      if_neg (hfits.term.mpr rfl), hfits.stop.rd_cons, ok_bind, if_neg (by decide)] at hpass
    exact parseLoop_next hpass (by rw [Loop.cpp_add]; omega) hfits.built hfits.passes
      (ihrest (by rw [Loop.cpp_add]; exact hfits.stop.next)
        (iff_of_true (Loop.term_add (hfits.term.mpr rfl)) rfl) (by omega))
  | @lambda b u v r s₁ s₂ s₃ t h hvar hbody _ ihbody ihrest =>
    obtain ⟨k, q, rfl, hle, hq, hk, hpass⟩ := pass_head (E := E) hs hpts h hk
    obtain ⟨var, q', hconst, hlt, hq', hlen⟩ : ∃ var q', parseConst E (s ++ [0]) (q + 1) = .ok (var, q') ∧
        q < q' ∧ Points s q' s₂ ∧ ∀ d ∈ constant var, LengthOk s d := by
      rcases hvar with ⟨ty, htok⟩ | ⟨rfl, hmissing⟩
      · obtain ⟨var, q', hrun, hlt, hq', hlen⟩ := parseConst_token (E := E) hq.next htok
        exact ⟨var, q', hrun, by omega, hq', hlen⟩
      · exact ⟨.null, q + 1, parseConst_missing hq.next hmissing, by omega, hq.next, nofun⟩
    have hq₁ := hq.length
    have hq₂ := hq'.length
    rw [List.length_cons] at hq₁
    obtain ⟨body, hrun, hfits⟩ := ihbody (l := ⟨q', .null, false⟩) (k := k) hq' (fresh_term _) (by omega)
    have hin := hbody.length_le
    have hout := hfits.stop.length
    rw [parseItem, hq.rd_cons, ok_bind, if_neg (by decide), if_neg (by decide), if_pos rfl, hconst,
      ok_bind] at hpass
    simp only [hrun, ok_bind] at hpass
    refine parseLoop_next hpass (by rw [Loop.cpp_add]; omega)
      (fun d hd => (List.mem_append.mp hd).elim (hlen d) (hfits.built d)) hfits.passes
      (ihrest (by rw [Loop.cpp_add]; exact hfits.stop) (iff_of_true (Loop.term_add nofun) rfl) (by omega))

/-- Where a pass goes on, the loop returns what it makes of the rest. -/
theorem parseLoop_of_next {l' : Loop} {built : List RdrFields} {passes : List (Nat × Nat)}
    {out : Parsed}
    (hpass : parsePass E (s ++ [0]) (fun p => parseLoop E (s ++ [0]) k ⟨p, .null, false⟩) l =
      .ok (.next l' built passes))
    (hok : parseLoop E (s ++ [0]) (k + 1) l = .ok out) :
    ∃ rest, parseLoop E (s ++ [0]) k l' = .ok rest ∧ out.term = rest.term ∧ out.cpp = rest.cpp ∧
      out.built = built ++ rest.built := by
  rw [parseLoop, hpass, ok_bind] at hok
  obtain ⟨rest, hrest, hok⟩ := (bind_eq_ok _ _ _).mp hok
  cases hok
  exact ⟨rest, hrest, rfl, rfl, rfl⟩

/-- Where a pass returns, the loop does. -/
theorem parseLoop_of_ret {out out' : Parsed}
    (hpass : parsePass E (s ++ [0]) (fun p => parseLoop E (s ++ [0]) k ⟨p, .null, false⟩) l =
      .ok (.ret out'))
    (hok : parseLoop E (s ++ [0]) (k + 1) l = .ok out) : out = out' := by
  rw [parseLoop, hpass] at hok
  cases hok
  rfl

/-- A pass of a loop that returns has returned. -/
theorem parsePass_of_ok {out : Parsed} (hok : parseLoop E (s ++ [0]) (k + 1) l = .ok out) :
    ∃ x, parsePass E (s ++ [0]) (fun p => parseLoop E (s ++ [0]) k ⟨p, .null, false⟩) l = .ok x := by
  rw [parseLoop] at hok
  obtain ⟨x, hx, -⟩ := (bind_eq_ok _ _ _).mp hok
  exact ⟨x, hx⟩

/-- The string has been taken apart up to the place that a call returns. -/
def Taken (s : List UInt8) (b : Bool) (r : List UInt8) (out : Parsed) : Prop :=
  ∃ v t, Points s out.cpp t ∧ (out.term ≠ .null ↔ v = true) ∧ Reads b r v t

theorem Taken.of_rest {b b' : Bool} {out rest : Parsed} (h : Taken s b r rest)
    (hterm : out.term = rest.term) (hcpp : out.cpp = rest.cpp)
    (hreads : ∀ v t', Reads b r v t' → Reads b' t v t') : Taken s b' t out := by
  obtain ⟨v, t', hstop, hv, h⟩ := h
  exact ⟨v, t', hcpp ▸ hstop, hterm ▸ hv, hreads v t' h⟩

section Step

variable {b : Bool} {out : Parsed}
  (ih : ∀ {l : Loop} {r : List UInt8} {b : Bool} {out : Parsed}, Points s l.cpp r →
    (l.term ≠ .null ↔ b = true) → parseLoop E (s ++ [0]) k l = .ok out →
    (∀ d ∈ out.built, LengthOk s d) → Taken s b r out)
  (hpass : parsePass E (s ++ [0]) (fun p => parseLoop E (s ++ [0]) k ⟨p, .null, false⟩) l =
    parseItem E (s ++ [0]) (fun p => parseLoop E (s ++ [0]) k ⟨p, .null, false⟩) l q)
  (hq : Points s q (r.dropWhile isSpace)) (hok : parseLoop E (s ++ [0]) (k + 1) l = .ok out)
  (hbuilt : ∀ d ∈ out.built, LengthOk s d)

include ih hpass hq hok hbuilt

theorem taken_const (hs : 0 ∉ s) (hr : r ≠ [])
    (hhead : ∀ c ∈ (r.dropWhile isSpace).head?, c ≠ 40 ∧ c ≠ 41 ∧ c ≠ 92) : Taken s b r out := by
  obtain ⟨x, hx⟩ := parsePass_of_ok hok
  rw [hpass, parseItem_const hq hhead] at hx
  rw [parseItem_const hq hhead] at hpass
  obtain ⟨⟨t2, q'⟩, hrun, -⟩ := (bind_eq_ok _ _ _).mp hx
  rw [hrun] at hpass
  obtain ⟨rest, hrest, hterm, hcpp, hbuilt'⟩ := parseLoop_of_next hpass hok
  have hlen : ∀ d ∈ constant t2, LengthOk s d := fun d hd =>
    hbuilt d (hbuilt' ▸ List.mem_append_left _ hd)
  have hgo : ∀ {t}, Points s q' t → Taken s true t rest := fun hq' =>
    ih (by rwa [Loop.cpp_apply]) (iff_of_true Loop.term_apply rfl) hrest fun d hd =>
      hbuilt d (hbuilt' ▸ List.mem_append_right _ hd)
  rcases parseConst_cases hs hq hrun hlen with ⟨ty, t, htok, hq', -⟩ | ⟨rfl, hmissing⟩
  · exact (hgo hq').of_rest hterm hcpp fun _ _ h => .const htok h
  · cases hspace : r.dropWhile isSpace with
    | nil =>
      rw [hspace] at hq
      refine (hgo hq).of_rest hterm hcpp fun v t h => ?_
      obtain ⟨rfl, rfl⟩ := h.of_nil
      exact .blank hr hspace
    | cons c t =>
      -- an unknown character stays where it is
      have hnospace := List.head?_dropWhile_not isSpace r
      rw [hspace] at hq hhead hmissing hnospace
      have hstuck : parseLoop E (s ++ [0]) k (l.apply t2 q') = .error .fuel :=
        parseLoop_stuck hs ⟨hmissing c rfl, hnospace, hhead c rfl⟩ (by rw [Loop.cpp_apply]; exact hq)
      rw [hstuck] at hrest
      cases hrest

theorem taken_paren (h : r.dropWhile isSpace = 40 :: t) : Taken s b r out := by
  obtain ⟨x, hx⟩ := parsePass_of_ok hok
  rw [h] at hq
  rw [hpass, parseItem, hq.rd_cons, ok_bind, if_neg (by decide), if_pos rfl] at hx
  rw [parseItem, hq.rd_cons, ok_bind, if_neg (by decide), if_pos rfl] at hpass
  obtain ⟨t2, hrun, hx⟩ := (bind_eq_ok _ _ _).mp hx
  rw [hrun, ok_bind] at hpass
  have hinner : (∀ d ∈ t2.built, LengthOk s d) → Taken s false t t2 := ih hq.next (fresh_term _) hrun
  by_cases hnull : t2.term = .null
  · rw [if_pos hnull] at hpass
    obtain rfl := parseLoop_of_ret hpass hok
    obtain ⟨v, t', hstop, hv, hreads⟩ := hinner hbuilt
    obtain rfl : v = false := by
      cases v
      · rfl
      · exact absurd hnull (hv.mpr rfl)
    exact ⟨false, t', hstop, hv, .empty h hreads⟩
  rw [if_neg hnull] at hpass hx
  obtain ⟨c, hc, -⟩ := (bind_eq_ok _ _ _).mp hx
  rw [hc, ok_bind] at hpass
  by_cases hclose : c = 41
  · rw [if_neg (not_not.mpr hclose)] at hpass
    obtain ⟨rest, hrest, hterm, hcpp, hbuilt'⟩ := parseLoop_of_next hpass hok
    obtain ⟨v, t', hstop, hv, hreads⟩ := hinner fun d hd =>
      hbuilt d (hbuilt' ▸ List.mem_append_left _ hd)
    obtain rfl := hv.mp hnull
    rcases hreads.end_of_term rfl with rfl | ⟨t', rfl⟩
    · rw [hstop.rd_nil] at hc
      cases hc
      exact absurd hclose (by decide)
    have hgo : Taken s true t' rest :=
      ih (by rw [Loop.cpp_add]; exact hstop.next) (iff_of_true (Loop.term_add hnull) rfl) hrest
        fun d hd => hbuilt d (hbuilt' ▸ List.mem_append_right _ hd)
    exact hgo.of_rest hterm hcpp fun _ _ h' => .paren h hreads h'
  · rw [if_pos hclose] at hpass
    obtain rfl := parseLoop_of_ret hpass hok
    obtain ⟨v, t', hstop, hv, hreads⟩ := hinner hbuilt
    obtain rfl := hv.mp hnull
    rcases hreads.end_of_term rfl with rfl | ⟨t', rfl⟩
    · exact ⟨false, [], hstop, ⟨fun h => absurd rfl h, nofun⟩, .unclosed h hreads⟩
    · rw [hstop.rd_cons] at hc
      cases hc
      exact absurd rfl hclose

theorem taken_lambda (hs : 0 ∉ s) (h : r.dropWhile isSpace = 92 :: t) : Taken s b r out := by
  obtain ⟨x, hx⟩ := parsePass_of_ok hok
  rw [h] at hq
  rw [hpass, parseItem, hq.rd_cons, ok_bind, if_neg (by decide), if_neg (by decide), if_pos rfl] at hx
  rw [parseItem, hq.rd_cons, ok_bind, if_neg (by decide), if_neg (by decide), if_pos rfl] at hpass
  obtain ⟨⟨var, q'⟩, hvar, hx⟩ := (bind_eq_ok _ _ _).mp hx
  obtain ⟨body, hrun, -⟩ := (bind_eq_ok _ _ _).mp hx
  rw [hvar, ok_bind] at hpass
  simp only [hrun, ok_bind] at hpass
  obtain ⟨rest, hrest, hterm, hcpp, hbuilt'⟩ := parseLoop_of_next hpass hok
  rw [List.append_assoc] at hbuilt'
  have hvar' : ∃ t₁, ((∃ ty, Token ty t t₁) ∨ t₁ = t ∧ ∀ c ∈ t.head?, ¬ BeginsConst c) ∧
      Points s q' t₁ := by
    rcases parseConst_cases hs hq.next hvar fun d hd =>
      hbuilt d (hbuilt' ▸ List.mem_append_left _ hd) with ⟨ty, t₁, htok, hq', -⟩ | ⟨rfl, hmissing⟩
    · exact ⟨t₁, .inl ⟨ty, htok⟩, hq'⟩
    · exact ⟨t, .inr ⟨rfl, hmissing⟩, hq.next⟩
  obtain ⟨t₁, htok, hq'⟩ := hvar'
  obtain ⟨v, t₂, hstop, -, hreads⟩ : Taken s false t₁ body := ih hq' (fresh_term _) hrun fun d hd =>
    hbuilt d (hbuilt' ▸ List.mem_append_right _ (List.mem_append_left _ hd))
  have hlambda : (l.add (cliNode { type := .lambda } var body.term) body.cpp).term ≠ .null :=
    Loop.term_add nofun
  have hgo : Taken s true t₂ rest :=
    ih (by rw [Loop.cpp_add]; exact hstop) (iff_of_true hlambda rfl) hrest fun d hd =>
      hbuilt d (hbuilt' ▸ List.mem_append_right _ (List.mem_append_right _ hd))
  exact hgo.of_rest hterm hcpp fun _ _ h' => .lambda h htok hreads h'

end Step

/-- What the parser returns from, with the right lengths, it has taken apart. -/
theorem parseLoop_taken {b : Bool} {out : Parsed} (hs : 0 ∉ s) (h : Points s l.cpp r)
    (hterm : l.term ≠ .null ↔ b = true) (hok : parseLoop E (s ++ [0]) k l = .ok out)
    (hbuilt : ∀ d ∈ out.built, LengthOk s d) : Taken s b r out := by
  induction k generalizing l r b out with
  | zero => cases hok
  | succ k ih =>
    cases r with
    | nil =>
      obtain rfl := parseLoop_of_ret (parsePass_nil h) hok
      exact ⟨b, [], h, hterm, .done⟩
    | cons c r =>
      obtain ⟨q, hpass, -, hq⟩ := parsePass_item (E := E) (g := fun p =>
        parseLoop E (s ++ [0]) k ⟨p, .null, false⟩) hs h
      by_cases hhead : ∀ c' ∈ ((c :: r).dropWhile isSpace).head?, c' ≠ 40 ∧ c' ≠ 41 ∧ c' ≠ 92
      · exact taken_const ih hpass hq hok hbuilt hs nofun hhead
      cases hspace : (c :: r).dropWhile isSpace with
      | nil => exact absurd (fun c' hc' => by rw [hspace] at hc'; cases hc') hhead
      | cons c' t =>
        by_cases h40 : c' = 40
        · exact taken_paren ih hpass hq hok hbuilt (h40 ▸ hspace)
        by_cases h92 : c' = 92
        · exact taken_lambda ih hpass hq hok hbuilt hs (h92 ▸ hspace)
        obtain rfl : c' = 41 := by
          by_contra h41
          refine hhead fun c hc => ?_
          rw [hspace] at hc
          cases hc
          exact ⟨h40, h41, h92⟩
        rw [hspace] at hq
        rw [parseItem_close hq] at hpass
        obtain rfl := parseLoop_of_ret hpass hok
        exact ⟨b, 41 :: t, hq, hterm, .close hspace⟩

end Passes

/-- `parsePrefixTerm` on a string and the NUL byte behind it: it ends, each pass that goes on
consumes a character, the lengths are right, and a string that is no expression makes it fail,
exactly when the string is an expression or the parser gives it up. -/
theorem parsesRight_iff (E : Files) (s : List UInt8) (hs : 0 ∉ s) :
    ParsesRight E s ↔ WellFormed E s ∨ Rejected s := by
  constructor
  · rintro ⟨k, out, hok, -, hbuilt, hfail⟩
    obtain ⟨v, t, -, hv, hreads⟩ := parseLoop_taken hs (Points.start s) (fresh_term 0) hok hbuilt
    by_cases hwell : WellFormed E s
    · exact .inl hwell
    · cases v with
      | false => exact .inr ⟨t, hreads⟩
      | true => exact absurd (hfail hwell) (hv.mpr rfl)
  · intro h
    have hreads : ∃ v t, Reads false s v t ∧ (v = true → WellFormed E s) := by
      rcases h with h | ⟨t, h⟩
      · exact ⟨true, [], h.reads, fun _ => h⟩
      · exact ⟨false, t, h, nofun⟩
    obtain ⟨v, t, h, hwell⟩ := hreads
    obtain ⟨out, hok, hfits⟩ :=
      h.parses (E := E) (l := ⟨0, .null, false⟩) hs (Points.start s) (fresh_term 0) (Nat.lt_succ_self _)
    refine ⟨_, out, hok, hfits.passes, hfits.built, fun hnot => ?_⟩
    by_contra hne
    exact hnot (hwell (hfits.term.mp hne))

/-- A function and a string. -/
theorem parsesRight_call : ParsesRight ⟨1, fun _ => none⟩ [102, 32, 34, 97, 34] := by
  have hname : Token .flatname [102, 32, 34, 97, 34] [32, 34, 97, 34] :=
    .name (by decide) (by unfold Short; decide)
  have hstr : Token .str [34, 97, 34] [] := .str rfl (by unfold Short; decide)
  exact (parsesRight_iff _ _ (by decide)).mpr (.inl (.const hname nofun (.const hstr nofun .done)))

/-- An unknown character is never consumed, a string without its closing quote has a wrong length,
and a backslash without a name is no failure. -/
theorem parsesRight_fails :
    let E : Files := ⟨1, fun _ => none⟩
    ¬ ParsesRight E [43] ∧ ¬ ParsesRight E [34] ∧ ¬ ParsesRight E [92] := by
  refine ⟨?_, ?_, ?_⟩
  · rintro ⟨k, out, hok, -⟩
    rw [parsePrefixTerm, parseLoop_stuck (by decide) ⟨by decide, by decide⟩ (Points.start _)] at hok
    cases hok
  · rintro ⟨k, out, hok, -, hbuilt, -⟩
    match k with
    | 0 => cases hok
    | 1 => cases hok
    | k + 2 =>
      cases hok
      exact absurd ((hbuilt _ (List.mem_singleton_self _)).2 rfl) (by decide)
  · have hill : ¬ WellFormed ⟨1, fun _ => none⟩ [92] := fun h => by
      cases h with
      | const htok =>
        obtain ⟨c, t, h, hc⟩ := htok.begins
        cases h
        exact (begins_class 92 hc).2.2 rfl
      | paren h => cases h
      | lambda h hvar =>
        cases h
        obtain ⟨c, t, h, -⟩ := hvar.begins
        cases h
    rintro ⟨k, out, hok, -, -, hfail⟩
    match k with
    | 0 => cases hok
    | 1 => cases hok
    | k + 2 =>
      cases hok
      exact absurd (hfail hill) nofun

end Ccnl.Command
