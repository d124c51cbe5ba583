import CcnLite.Core.Path
import CcnLite.Core.Tables

/-!
# The content store by name (`ccnl_cs_lookup`, `ccnl_cs_remove`)

Both functions walk the contents and compare the string with the printed name of each, as many
characters as the name has (`csWalk`). A content whose name is only the start of the string is taken
for the one that is asked for, a name that is much longer than the string makes the comparison read
behind it, and a name that cannot be printed ends the walk.

* `csWalk_csRemoveFind`: the walk is that of `csRemove`, where it commits no fault.
* `byName_iff`: when the functions find what they are asked for.
-/

namespace Ccnl

open CRun

/-! ## The functions -/

/-- `memcmp(a, b, n) == 0`, for which both must have `n` bytes. -/
def memcmpEq (a b : List UInt8) (n : Nat) : Run Bool := do
  let x ← rdBytes a 0 n
  let y ← rdBytes b 0 n
  return x == y

/-- The walk over the contents: the index of the one that is found, or the value that
`ccnl_cs_remove` returns. `pfx` is the memory of the string. -/
def csWalk (pfx : List UInt8) : List Content → Run (Except Int Nat)
  | [] => return .error (-3)
  | c :: cs => do
    match ← attempt (prefixToPath c.pkt.pfx) with
    | none => return .error (-2)
    | some spref =>
      if ← memcmpEq pfx spref (← rdStr spref).length then return .ok 0
      else return (← csWalk pfx cs).map (· + 1)

/-- `ccnl_cs_lookup`, with the string `s`: the index of the content, `none` for NULL. -/
def csLookup (σ : Relay) (s : List UInt8) : Run (Option Nat) := do
  return (← csWalk (s ++ [0]) σ.contents).toOption

/-- `ccnl_cs_remove`, with the string `s`. -/
def csRemoveName (σ : Relay) (s : List UInt8) : Run (Relay × Int) := do
  match ← csWalk (s ++ [0]) σ.contents with
  | .ok k => return (contentRemove σ k, 0)
  | .error e => return (σ, e)

/-! ## What they find -/

/-- The printed path of a name, if it can be printed. -/
def namePath (pfx : Option Prefix) : Option (List UInt8) := do
  let p ← pfx
  let text := pathText p true false
  if text.length < maxPrefixSize then some text else none

/-- The printed path of a content. -/
def Content.path (c : Content) : Option (List UInt8) := namePath c.pkt.pfx

section Find

variable {s t : List UInt8} {c : Content} {cs : List Content}

theorem rdStr_at {mem : List UInt8} (h : rdStr mem = .ok t) : At mem 0 t := by
  unfold rdStr at h
  split at h
  · cases h
    exact List.takeWhile_prefix _
  · cases h

/-- What the walk sees of a content. -/
theorem attempt_path (c : Content) :
    (c.path = none ∧ attempt (prefixToPath c.pkt.pfx) = .ok none) ∨
    ∃ t mem, c.path = some t ∧ attempt (prefixToPath c.pkt.pfx) = .ok (some mem) ∧
      rdStr mem = .ok t ∧ At mem 0 t ∧ 0 ∉ t := by
  unfold Content.path namePath
  cases hp : c.pkt.pfx with
  | none => exact .inl ⟨rfl, rfl⟩
  | some p =>
    have hpath := prefixToPath_eq p
    simp only [Option.bind_eq_bind, Option.bind_some]
    split at hpath
    · rename_i hlen
      obtain ⟨mem, hmem, hstr⟩ := (bind_eq_ok _ _ _).mp hpath
      rw [if_pos hlen]
      exact .inr ⟨_, mem, rfl, attempt_eq_some.mpr hmem, hstr, rdStr_at hstr,
        zero_notMem_pathText p true false⟩
    · rename_i hlen
      rw [if_neg hlen]
      refine .inl ⟨rfl, attempt_eq_none.mpr ?_⟩
      cases hr : prefixToPath (some p) with
      | error e =>
        rw [hr] at hpath
        exact hpath
      | ok mem =>
        rw [hr, ok_bind, rdStr] at hpath
        split at hpath <;> cases hpath

/-- The comparison with a name that is not much longer than the string. -/
theorem memcmpEq_path {mem : List UInt8} (hat : At mem 0 t) (hno : 0 ∉ t) :
    memcmpEq (s ++ [0]) mem t.length =
      if s.length + 1 < t.length then .error (.oob (s.length + 1)) else .ok (decide (t <+: s)) := by
  have hlen : (s ++ [0]).length = s.length + 1 := by rw [List.length_append, List.length_singleton]
  unfold memcmpEq
  by_cases h : s.length + 1 < t.length
  · have hread : rdBytes (s ++ [0]) 0 t.length = .error (.oob (s.length + 1)) := by
      rw [rdBytes, if_neg (by omega), hlen]
    rw [if_pos h, hread]
    rfl
  · have hread : rdBytes (s ++ [0]) 0 t.length = .ok ((s ++ [0]).take t.length) := by
      rw [rdBytes, if_pos (.inr (by omega)), List.drop_zero]
    rw [if_neg h, hread, ok_bind, hat.rdBytes, ok_bind]
    congr 1
    rw [Bool.eq_iff_iff, beq_iff_eq, decide_eq_true_iff, eq_comm, ← List.prefix_iff_eq_take]
    constructor
    · intro hp
      rcases Nat.lt_or_ge s.length t.length with hlt | hle
      · -- then the name would end with the zero byte
        have heq := hp.eq_of_length (by omega)
        exact absurd (heq ▸ List.mem_append_right s List.mem_cons_self) hno
      · exact List.prefix_of_prefix_length_le hp (List.prefix_append s [0]) hle
    · exact fun hp => hp.trans (List.prefix_append s [0])

theorem csWalk_none (h : c.path = none) : csWalk (s ++ [0]) (c :: cs) = .ok (.error (-2)) := by
  rcases attempt_path c with ⟨-, ha⟩ | ⟨t, mem, ht, -⟩
  · rw [csWalk, ha]
    rfl
  · cases h.symm.trans ht

theorem csWalk_some (h : c.path = some t) : csWalk (s ++ [0]) (c :: cs) =
    if s.length + 1 < t.length then .error (.oob (s.length + 1))
    else if t <+: s then .ok (.ok 0)
    else csWalk (s ++ [0]) cs >>= fun r => pure (r.map (· + 1)) := by
  rcases attempt_path c with ⟨hn, -⟩ | ⟨t', mem, ht, ha, hstr, hat, hno⟩
  · cases h.symm.trans hn
  · obtain rfl := Option.some.inj (h.symm.trans ht)
    rw [csWalk, ha, ok_bind]
    dsimp only
    rw [hstr, ok_bind, memcmpEq_path hat hno]
    by_cases hlen : s.length + 1 < t.length
    · rw [if_pos hlen, if_pos hlen]
      rfl
    · rw [if_neg hlen, if_neg hlen, ok_bind]
      by_cases hp : t <+: s <;> simp [hp]

/-- The walk of `csRemove`, with the reads. -/
theorem csWalk_csRemoveFind {r : Except Int Nat} (h : csWalk (s ++ [0]) cs = .ok r) :
    r = csRemoveFind namePath s cs := by
  induction cs generalizing r with
  | nil =>
    cases h
    rfl
  | cons c cs ih =>
    rw [csRemoveFind, show namePath c.pkt.pfx = c.path from rfl]
    cases hc : c.path with
    | none =>
      rw [csWalk_none hc] at h
      cases h
      rfl
    | some t =>
      rw [csWalk_some hc] at h
      split at h
      · cases h
      · dsimp only
        split at h
        · rename_i hp
          cases h
          rw [if_pos hp]
        · rename_i hp
          obtain ⟨r', hr', h⟩ := (bind_eq_ok _ _ _).mp h
          cases h
          rw [if_neg hp, ih hr']

theorem csRemoveName_csRemove {σ : Relay} {r : Relay × Int} (h : csRemoveName σ s = .ok r) :
    r = csRemove namePath σ s := by
  obtain ⟨x, hx, h⟩ := (bind_eq_ok _ _ _).mp h
  rw [csRemove, ← csWalk_csRemoveFind hx]
  cases x <;> cases h <;> rfl

/-! ## Finding what is asked for -/

/-- The first content with this path. -/
def firstWith (s : List UInt8) (cs : List Content) : Option Nat := cs.findIdx? fun c => c.path = some s

/-- The two functions find the first content with the path `s`, read nothing behind the string, and
change nothing but that the content is removed. -/
def ByName (σ : Relay) (s : List UInt8) : Prop :=
  csLookup σ s = .ok (firstWith s σ.contents) ∧
  match firstWith s σ.contents with
  | some k => csRemoveName σ s = .ok (contentRemove σ k, 0)
  | none => ∃ e < 0, csRemoveName σ s = .ok (σ, e)

/-- Nothing stands in the way to the first content with the path `s`: no path in front of it that is a
start of `s`, or that is longer by more than one, and none that cannot be printed. -/
def Clear (s : List UInt8) : List Content → Prop
  | [] => True
  | c :: cs =>
    match c.path with
    | none => ∀ d ∈ cs, d.path ≠ some s
    | some t => t = s ∨ (¬ t <+: s ∧ t.length ≤ s.length + 1 ∧ Clear s cs)

/-- The walk ends at the first content with the path `s`. -/
def Finds (s : List UInt8) (cs : List Content) : Prop :=
  match firstWith s cs with
  | some k => csWalk (s ++ [0]) cs = .ok (.ok k)
  | none => ∃ e < 0, csWalk (s ++ [0]) cs = .ok (.error e)

theorem firstWith_cons (s : List UInt8) (c : Content) (cs : List Content) :
    firstWith s (c :: cs) = if c.path = some s then some 0 else (firstWith s cs).map (· + 1) := by
  rw [firstWith, List.findIdx?_cons]
  simp only [decide_eq_true_eq]
  rfl

theorem finds_iff_clear : Finds s cs ↔ Clear s cs := by
  induction cs with
  | nil => exact iff_of_true ⟨-3, by decide, rfl⟩ trivial
  | cons c cs ih =>
    unfold Finds at ih ⊢
    rw [Clear, firstWith_cons]
    cases hc : c.path with
    | none =>
      rw [csWalk_none hc, if_neg (Option.some_ne_none s).symm]
      dsimp only
      cases hf : firstWith s cs with
      | none =>
        refine iff_of_true ⟨-2, by decide, rfl⟩ fun d hd => ?_
        simpa using List.findIdx?_eq_none_iff.mp hf d hd
      | some k =>
        refine iff_of_false (fun h => by cases h) fun h => ?_
        obtain ⟨d, hd, hp⟩ := List.findIdx?_isSome.symm.trans (congrArg Option.isSome hf) |> List.any_eq_true.mp
        exact h d hd (by simpa using hp)
    | some t =>
      rw [csWalk_some hc]
      dsimp only
      by_cases hts : t = s
      · subst hts
        rw [if_pos rfl]
        refine iff_of_true ?_ (.inl rfl)
        rw [if_neg (by omega), if_pos List.prefix_rfl]
      · rw [if_neg (by simpa using hts)]
        by_cases hlong : s.length + 1 < t.length
        · rw [if_pos hlong]
          refine iff_of_false ?_ fun h => ?_
          · cases firstWith s cs <;> simp
          · rcases h with h | ⟨-, h, -⟩
            · exact hts h
            · omega
        rw [if_neg hlong]
        by_cases hp : t <+: s
        · rw [if_pos hp]
          refine iff_of_false ?_ fun h => ?_
          · cases firstWith s cs <;> simp
          · rcases h with h | ⟨h, -⟩
            · exact hts h
            · exact h hp
        rw [if_neg hp]
        simp only [hts, hp, Nat.le_of_not_lt hlong, not_false_eq_true, true_and, false_or]
        rw [← ih]
        have hnext : ∀ r, (csWalk (s ++ [0]) cs >>= fun r => pure (r.map (· + 1))) = .ok r ↔
            ∃ r', csWalk (s ++ [0]) cs = .ok r' ∧ r'.map (· + 1) = r := by
          intro r
          rw [bind_eq_ok]
          exact exists_congr fun r' => and_congr_right fun _ => ⟨Except.ok.inj, congrArg Except.ok⟩
        cases firstWith s cs with
        | none =>
          refine exists_congr fun e => and_congr_right fun _ => (hnext _).trans ⟨?_, fun h => ⟨_, h, rfl⟩⟩
          rintro ⟨r', hr', he⟩
          cases r' with
          | error e' =>
            cases he
            exact hr'
          | ok k => cases he
        | some k =>
          refine (hnext _).trans ⟨?_, fun h => ⟨_, h, rfl⟩⟩
          rintro ⟨r', hr', he⟩
          cases r' with
          | error e' => cases he
          | ok k' =>
            obtain rfl : k' = k := Nat.succ.inj (Except.ok.inj he)
            exact hr'

/-- Both functions are the walk. -/
theorem byName_iff_finds {σ : Relay} : ByName σ s ↔ Finds s σ.contents := by
  unfold ByName Finds csLookup csRemoveName
  cases hf : csWalk (s ++ [0]) σ.contents with
  | error f =>
    refine iff_of_false (fun h => ?_) ?_
    · cases h.1
    · cases firstWith s σ.contents <;> simp
  | ok r =>
    cases firstWith s σ.contents with
    | none =>
      cases r with
      | error e => simp [Except.toOption]
      | ok k => simp [Except.toOption]
    | some k =>
      cases r with
      | error e => simp [Except.toOption]
      | ok k' =>
        refine ⟨fun h => ?_, fun h => ?_⟩
        · obtain rfl := Option.some.inj (Except.ok.inj h.1)
          rfl
        · obtain rfl := Except.ok.inj (Except.ok.inj h)
          exact ⟨rfl, rfl⟩

end Find

/-- The two functions find what they are asked for exactly when nothing stands in the way. -/
theorem byName_iff (σ : Relay) (s : List UInt8) : ByName σ s ↔ Clear s σ.contents :=
  byName_iff_finds.trans finds_iff_clear

/-- A store with the content `/a`. -/
def storeOfA : Relay where
  contents := [{ pkt := { pfx := some (.ofComps .ndntlv [[97]]), s := .ndntlv {}, suite := .ndntlv } }]
  contentcnt := 1

/-- For "/ab" the content `/a` is found. -/
theorem byName_start : csLookup storeOfA [47, 97, 98] = .ok (some 0) ∧ ¬ ∀ σ s, ByName σ s := by
  have hfind : csLookup storeOfA [47, 97, 98] = .ok (some 0) := by decide +kernel
  refine ⟨hfind, fun h => ?_⟩
  have hnone : firstWith [47, 97, 98] storeOfA.contents = none := by decide +kernel
  obtain ⟨hlookup, -⟩ := h storeOfA [47, 97, 98]
  rw [hfind, hnone] at hlookup
  cases hlookup

end Ccnl
