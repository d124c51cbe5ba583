import CcnLite.Lib.Sys
import CcnLite.Pkt.Faults
import CcnLite.Rpc.Tiling

/-!
# The RPCs of a frame (`ccnl_localrpc_exec`)

`localrpcLoop` is the loop of `ccnl_localrpc_exec` as far as the cursor goes. What a request does to
the relay is not in it; its return value is a parameter. The loop frees the term that it decoded and
then reads the length of the term from the freed node, so what such a read gives is a parameter, too.
Where it gives what was there before, the loop ends, and each RPC takes at least two bytes
(`localrpcLoop_meets`).
-/

namespace Ccnl

open CRun

/-- A pass of the loop, with the return value of the pass before. The loop is left with the cursor,
or with `none` for an error. `freed a` is `a->flatlen` after `ccnl_rdr_free(a)`. -/
def localrpcStep (handleRequest : Rdr → Int) (freed : Rdr → Run Nat) (mem : List UInt8)
    (s : Int × Cursor) : Run ((Int × Cursor) ⊕ Option Cursor) := do
  let (rc, c) := s
  if rc ≠ 0 ∨ c.len = 0 then return .inr (some c)
  let b ← rd mem c.pos
  if b ≠ 0 ∧ b ≠ 0x81 ∧ b ≠ 0x82 then return .inr none
  let (type, a) ← getType mem (unserialize c.pos c.len)
  if type ≠ RdrType.request.code ∧ type ≠ RdrType.reply.code then return .inr none
  -- `ccnl_localrpc_handleReply` returns 0
  let rc := if type = RdrType.request.code then handleRequest a else 0
  let flatlen ← freed a
  -- `*buflen` wraps around
  if c.len < flatlen then return .inr (some ⟨c.pos + flatlen, c.len + 2 ^ 64 - flatlen⟩)
  return .inl (rc, ⟨c.pos + flatlen, c.len - flatlen⟩)

/-- The loop of `ccnl_localrpc_exec`. -/
def localrpcLoop (handleRequest : Rdr → Int) (freed : Rdr → Run Nat) (mem : List UInt8) (c : Cursor) :
    Run (Option Cursor) :=
  loop (localrpcStep handleRequest freed mem) (c.len + 1) (0, c)

/-- A read of a freed node gives what was there, or cannot be made. -/
structure FreedStays (freed : Rdr → Run Nat) : Prop where
  stays : ∀ a n, freed a = .ok n → n = a.flatlen
  stops : ∀ a s, freed a = .error s → s = .dangling

section Exec

variable {handleRequest : Rdr → Int} {freed : Rdr → Run Nat} {mem : List UInt8} {c : Cursor}

/-- With nothing left the loop is not entered. -/
theorem localrpcLoop_idle (h : c.len = 0) :
    localrpcLoop handleRequest freed mem c = .ok (some c) :=
  loop_succ_eq_ok.mpr (.inr (if_pos (.inr h)))

theorem getType_noFault {p n : Nat} : Avoids ParserFault (getType mem (unserialize p n)) := by
  intro s hs
  obtain ⟨i, rfl⟩ := (getTypeFrom_tiles (Nat.lt_succ_self n)).ends s hs
  exact parserFault_oob i

/-- A term that is decoded has at least two bytes, which are among those at the cursor. -/
theorem getType_flatlen {p n : Nat} {r : Int} {a : Rdr}
    (h : getType mem (unserialize p n) = .ok (r, a)) (hr : 0 ≤ r) :
    2 ≤ a.flatlen ∧ a.flatlen ≤ n := by
  obtain ⟨-, hne, hle, htiles⟩ := (getTypeFrom_tiles (Nat.lt_succ_self n)).tiles r a h hr
  exact ⟨htiles.two_le hne, hle⟩

/-- A pass takes at least two bytes. -/
theorem localrpcStep_meets (hf : FreedStays freed) (s : Int × Cursor) :
    Meets Endless (Sum.elim (fun s' => s'.2.After s.2 ∧ s'.2.len < s.2.len)
      fun r => r = some s.2 ∧ (s.1 ≠ 0 ∨ s.2.len = 0) ∨ r = none)
      (localrpcStep handleRequest freed mem s) := by
  obtain ⟨rc, c⟩ := s
  unfold localrpcStep
  dsimp only
  split
  · rename_i hleave
    exact .ok (.inl ⟨rfl, hleave⟩)
  rename_i hleave
  refine ((rd_noFault _).mono Endless.parser).meets.bind fun b _ => ?_
  split
  · exact .ok (.inr rfl)
  have hget : Meets Endless (fun x => 0 ≤ x.1 → 2 ≤ x.2.flatlen ∧ x.2.flatlen ≤ c.len)
      (getType mem (unserialize c.pos c.len)) :=
    ⟨getType_noFault.mono Endless.parser, fun x hx hr => getType_flatlen hx hr⟩
  refine hget.bind fun x hx => ?_
  obtain ⟨type, a⟩ := x
  dsimp only at hx ⊢
  split
  · exact .ok (.inr rfl)
  rename_i htype
  have hpos : 0 ≤ type := by
    by_contra hneg
    refine htype ⟨?_, ?_⟩ <;> rintro rfl <;> exact hneg (by decide)
  obtain ⟨h2, hle⟩ := hx hpos
  have hfreed : Meets Endless (fun n => n = a.flatlen) (freed a) :=
    ⟨fun s hs => by rw [hf.stops a s hs]; exact endless_dangling, hf.stays a⟩
  refine hfreed.bind ?_
  rintro n rfl
  rw [if_neg (by omega)]
  exact .ok ⟨.of_le hle, show c.len - a.flatlen < c.len by omega⟩

/-- The loop ends. It is left at the cursor when it is not entered, and at a later one otherwise. -/
theorem localrpcLoop_meets (hf : FreedStays freed) :
    Meets Endless (fun r => ∀ c', r = some c' → c'.After c ∧ (c.len ≠ 0 → c'.len < c.len))
      (localrpcLoop handleRequest freed mem c) := by
  refine Meets.loop (I := fun s => s.2.After c ∧ (s.2.len < c.len ∨ s = (0, c)))
    (m := fun s => s.2.len) (fun s hs => ?_) ⟨.refl c, .inr rfl⟩ (Nat.lt_succ_self _)
  obtain ⟨hafter, hs⟩ := hs
  refine (localrpcStep_meets hf s).mono fun x hx => ?_
  cases x with
  | inl s' =>
    exact ⟨⟨hafter.trans hx.1, .inl (Nat.lt_of_lt_of_le hx.2 hafter.le)⟩, hx.2⟩
  | inr r =>
    rcases hx with ⟨rfl, hleave⟩ | rfl
    · rintro c' hc
      cases hc
      refine ⟨hafter, fun hne => ?_⟩
      rcases hs with hs | rfl
      · exact hs
      · rcases hleave with hleave | hleave
        · exact absurd rfl hleave
        · exact absurd hleave hne
    · rintro c' hc
      cases hc

end Exec

end Ccnl
