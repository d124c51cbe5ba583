import CcnLite.Lib.Follow
import CcnLite.Pkt.Buffer

/-!
# Where the signed bytes end

Both TLV parsers take the digest as one more element: what is in front of it has been signed, and
the packet loop goes on behind it. `SignedLoop` says what a body of the packet loop may do to the
packet. A run that ends with signed bytes came to the digest (`SignedLoop.digest`), and what it
delivers is what it had there, unless an element behind it sets a field (`DigestAt.delivered`).
-/

namespace Ccnl

open CRun Tlv

variable {α φ : Type}

/-- A body of the packet loop whose state has the packet in `pkt` and what is delivered in
`out`: no element changes what kind of packet it is, only the digest of an HMAC changes what is
signed, and only some elements deliver a field. `origin` is where the signed bytes start. -/
structure SignedLoop (H : Header) (elem : Nat → Nat → Nat → Cursor → α → Run α) (pkt : α → Pkt)
    (out : α → φ) (algo : α → Bool) (IsDigest Delivers : Nat → Prop) (origin : Nat) : Prop where
  kind : ∀ {hd typ len cur s s'}, elem hd typ len cur s = .ok s' →
    ((pkt s').type, (pkt s').hmacStart, (pkt s').suite) =
      ((pkt s).type, (pkt s).hmacStart, (pkt s).suite)
  hmac : ∀ {lim hd typ len cur s s'}, H.Head lim hd typ len cur.pos →
    elem hd typ len cur s = .ok s' →
      ((pkt s').hmacLen, (pkt s').hmacSignature) = ((pkt s).hmacLen, (pkt s).hmacSignature) ∨
        (IsDigest typ ∧ algo s = true ∧ len = 32) ∧
          ((pkt s').hmacLen, (pkt s').hmacSignature) = (hd - origin, some cur.pos)
  out : ∀ {hd typ len cur s s'}, elem hd typ len cur s = .ok s' → Delivers typ ∨ out s' = out s

/-- The packet loop, on its way from `c` and `s` to `s'`, comes to the digest: the header is at
`t`, the state there is `u`, and the 32 bytes are at `q`. -/
structure DigestAt (dehead : Cursor → Run (Option (Nat × Nat) × Cursor))
    (elem : Nat → Nat → Nat → Cursor → α → Run α) (pkt : α → Pkt) (algo : α → Bool)
    (IsDigest : Nat → Prop) (origin : Nat) (c : Cursor) (s s' : α) (t q : Cursor) (u : α) :
    Prop where
  reached : Reached (topStep dehead elem) (c, s) (t, u)
  pos : t.pos = origin + (pkt s').hmacLen
  algo : algo u = true
  head : ∃ typ, dehead t = .ok (some (typ, 32), q) ∧ IsDigest typ
  fits : 32 ≤ q.len
  signature : (pkt s').hmacSignature = some q.pos
  behind : ∃ e, Reached (topStep dehead elem) (t, u) (e, s')

section Loop

variable {dehead : Cursor → Run (Option (Nat × Nat) × Cursor)} {H : Header}
  {elem : Nat → Nat → Nat → Cursor → α → Run α} {pkt : α → Pkt} {out : α → φ} {algo : α → Bool}
  {IsDigest Delivers : Nat → Prop} {origin : Nat} {c c₂ t q : Cursor} {s s' u : α}

/-- The loop ends with the kind of packet that it started with. -/
theorem SignedLoop.kind_top (hs : SignedLoop H elem pkt out algo IsDigest Delivers origin)
    (h : top dehead elem c s = .ok (c₂, s')) :
    ((pkt s').type, (pkt s').hmacStart, (pkt s').suite) =
      ((pkt s).type, (pkt s).hmacStart, (pkt s).suite) :=
  top_keeps (I := fun w => ((pkt w).type, (pkt w).hmacStart, (pkt w).suite) =
    ((pkt s).type, (pkt s).hmacStart, (pkt s).suite)) h rfl
    fun _ _ _ _ _ _ hi he => (hs.kind he).trans hi

/-- What is signed ends where the element of the digest starts. -/
theorem SignedLoop.digest (hs : SignedLoop H elem pkt out algo IsDigest Delivers origin)
    (hd : Decodes H dehead) (h : top dehead elem c s = .ok (c₂, s')) (h0 : (pkt s).hmacLen = 0)
    (hlen : 0 < (pkt s').hmacLen) :
    ∃ t q u, DigestAt dehead elem pkt algo IsDigest origin c s s' t q u := by
  obtain ⟨⟨e, s₂⟩, hr, hleave⟩ := loop_eq_ok h
  obtain ⟨-, rfl⟩ := topStep_leaves.mp hleave
  let f : Cursor × α → Nat × Option Nat := fun w => ((pkt w.2).hmacLen, (pkt w.2).hmacSignature)
  have hne : f (e, s') ≠ f (c, s) := fun heq => by
    have := congrArg Prod.fst heq
    simp only [f] at this
    omega
  obtain ⟨⟨t, u⟩, ⟨t', u'⟩, hru, ha, hre, hf, hch⟩ := hr.last_change f hne
  obtain ⟨typ, len, q, hx, he, hfit, rfl⟩ := topStep_again.mp ha
  obtain ⟨hh, -⟩ := (hd.ok _ _ _ _).mp hx
  rcases hs.hmac hh he with hsame | ⟨⟨htyp, halgo, rfl⟩, hnew⟩
  · exact absurd hsame.symm hch
  · have hl : (pkt s').hmacLen = t.pos - origin := congrArg Prod.fst (hf.symm.trans hnew)
    have hsig : (pkt s').hmacSignature = some q.pos := congrArg Prod.snd (hf.symm.trans hnew)
    exact ⟨t, q, u, hru, by omega, halgo, ⟨typ, hx, htyp⟩, hfit, hsig, e, .head ha hre⟩

namespace DigestAt

variable (h : DigestAt dehead elem pkt algo IsDigest origin c s s' t q u)

include h

theorem lim (hd : Decodes H dehead) : c.pos ≤ t.pos ∧ t.pos + t.len = c.pos + c.len :=
  h.reached.invariant (I := fun w => c.pos ≤ w.1.pos ∧ w.1.pos + w.1.len = c.pos + c.len)
    ⟨Nat.le_refl _, rfl⟩ fun _ _ hi ha => by
      have := topStep_cursor hd ha
      omega

/-- The digest is in front of the end. -/
theorem end_le (hd : Decodes H dehead) : t.pos < q.pos ∧ q.pos + 32 ≤ c.pos + c.len := by
  obtain ⟨typ, hx, -⟩ := h.head
  obtain ⟨hh, hlim⟩ := (hd.ok _ _ _ _).mp hx
  have := hd.lt _ _ _ _ _ hh
  have := h.lim hd
  have := h.fits
  omega

/-- With no element behind that delivers a field, what is delivered is what was delivered so far. -/
theorem delivered (hs : SignedLoop H elem pkt out algo IsDigest Delivers origin)
    (hd : Decodes H dehead)
    (hb : ∀ typ, Behind H (c.pos + c.len) (origin + (pkt s').hmacLen) typ → ¬ Delivers typ) :
    out s' = out u := by
  obtain ⟨e, hre⟩ := h.behind
  refine keeps_behind (I := fun w => out w = out u) hd (fun typ ht => ?_) hre rfl
  change Behind H (t.pos + t.len) t.pos typ at ht
  rw [(h.lim hd).2, h.pos] at ht
  intro hd len cur a a' ha he
  exact ((hs.out he).resolve_left (hb typ ht)).trans ha

end DigestAt

end Loop

end Ccnl
