import CcnLite.Fwd.Frames
import Mathlib.Data.List.Pairwise

/-!
# One face for each peer

`ccnl_get_face_or_create` is called with an interface and an address, with an address alone
(`ifndx` -1, the interface is the first one of that address family), or without an address, for the
local client. The search through the faces comes before the interface is known: with an address
alone it finds nothing, and the call makes a new face each time.

`FaceCall.Clear` says that a call which makes a face does so for a new peer. It is what keeps one
face for each peer, no more and no less (`clear_iff`), and in a run of such calls a repeated call
gets the same face (`one_face_per_peer`). `ccnl_addr_cmp` compares link-layer addresses up to the
length of the first one, so a new peer is one that no known peer is equal to, in either order.
-/

namespace Ccnl

open CRun

/-- The two faces are at one interface, and `ccnl_addr_cmp` of their peers is 0. -/
def Face.SamePeer (x y : Face) : Prop :=
  x.ifndx = y.ifndx ∧ ∃ a ∈ x.peer, ∃ b ∈ y.peer, addrSame a b = true

/-- No two faces have the same peer, and there is one local face at most. -/
structure Relay.OneFacePerPeer (σ : Relay) : Prop where
  peers : σ.faces.Pairwise fun x y => ¬ x.SamePeer y ∧ ¬ y.SamePeer x
  «local» : σ.faces.Pairwise fun x y => ¬ (x.ifndx = -1 ∧ y.ifndx = -1)

/-- A call of `ccnl_get_face_or_create` or of `ccnl_face_remove`. -/
inductive FaceCall where
  | get (now : Nat) (ifndx : Int) (sa : Option SockAddr)
  | remove (f : FaceId)
  deriving DecidableEq

def FaceCall.run : FaceCall → Relay → Relay
  | get now ifndx sa, σ => (getFaceOrCreate now σ ifndx sa).1
  | remove f, σ => faceRemove σ f

/-- A relay that has no faces yet, and the calls. The interface table stays as it is. -/
def faceCalls : Sys Relay FaceCall where
  Start σ := σ.faces = []
  step c σ := pure (c.run σ)

/-- The interface of the face that a call is about. -/
def Relay.ifndxFor (σ : Relay) (ifndx : Int) : Option SockAddr → Option Int
  | none => some (-1)
  | some a =>
    if ifndx = -1 then (σ.ifs.findIdx? (·.addr.family == a.family)).map fun i : Nat => (i : Int)
    else some ifndx

/-- No face at the interface `j` has a peer that is equal to `a`. -/
def Relay.NewPeer (σ : Relay) (j : Int) (a : SockAddr) : Prop :=
  ∀ x ∈ σ.faces, x.ifndx = j → ∀ p ∈ x.peer, ¬ addrSame p a = true ∧ ¬ addrSame a p = true

/-- A call with an address finds a face, or the address is new at the interface. -/
def FaceCall.Clear : FaceCall → Relay → Prop
  | get _ ifndx (some a), σ =>
    (ifndx ≠ -1 ∧ ∃ x ∈ σ.faces, x.ifndx = ifndx ∧ ∃ p ∈ x.peer, addrSame p a = true) ∨
      ∀ j, σ.ifndxFor ifndx a = some j → σ.NewPeer j a
  | _, _ => True

/-! ## What a call does -/

/-- A face without the time of its last use. -/
def Face.plug (x : Face) : Face := { x with lastUsed := 0 }

def Relay.plugs (σ : Relay) : List Face := σ.faces.map Face.plug

/-- What the search of `ccnl_get_face_or_create` stops at. -/
def Face.found (ifndx : Int) (sa : Option SockAddr) (x : Face) : Bool :=
  match sa with
  | none => x.ifndx == -1
  | some a => ifndx != -1 && x.ifndx == ifndx && x.peer.any (addrSame · a)

section Calls

variable {σ τ : Relay} {now : Nat} {i j : Int} {sa : Option SockAddr} {a : SockAddr} {f : FaceId}
  {o : Option FaceId} {x y : Face} {c : FaceCall}

theorem found_some : x.found i (some a) = true ↔
    i ≠ -1 ∧ x.ifndx = i ∧ ∃ p ∈ x.peer, addrSame p a = true := by
  cases hp : x.peer <;> simp [Face.found, and_assoc, hp]

/-- The relay with one more face, of the interface `j` and the peer `sa`. -/
structure Joined (σ τ : Relay) (j : Int) (sa : Option SockAddr) : Prop where
  faces : ∃ x, τ.faces = x :: σ.faces ∧ x.faceid = σ.seqno + 1 ∧ x.ifndx = j ∧ x.peer = sa
  seqno : τ.seqno = σ.seqno + 1
  ifs : τ.ifs = σ.ifs

/-- The search finds a face, or there is no interface for the address, or a face is made. -/
theorem getFaceOrCreate_cases (h : getFaceOrCreate now σ i sa = (τ, o)) :
    (∃ x, σ.faces.find? (·.found i sa) = some x ∧ o = some x.faceid ∧ τ.plugs = σ.plugs ∧
      τ.seqno = σ.seqno ∧ τ.ifs = σ.ifs) ∨
    (σ.faces.find? (·.found i sa) = none ∧ σ.ifndxFor i sa = none ∧ τ = σ ∧ o = none) ∨
    (σ.faces.find? (·.found i sa) = none ∧ o = some (σ.seqno + 1) ∧
      ∃ j, σ.ifndxFor i sa = some j ∧ Joined σ τ j sa) := by
  unfold getFaceOrCreate at h
  cases sa with
  | none =>
    simp only at h
    split at h
    · rename_i x hx
      cases h
      exact .inl ⟨x, hx, rfl, rfl, rfl, rfl⟩
    · rename_i hx
      cases h
      exact .inr (.inr ⟨hx, rfl, -1, rfl, ⟨_, rfl, rfl, rfl, rfl⟩, rfl, rfl⟩)
  | some a =>
    simp only at h
    split at h
    · rename_i x hx
      cases h
      refine .inl ⟨x, hx, rfl, ?_, rfl, rfl⟩
      rw [Relay.plugs, Relay.plugs, Relay.setFace, List.map_map]
      refine List.map_congr_left fun y _ => ?_
      rw [Function.comp_apply]
      split <;> rfl
    · rename_i hx
      by_cases hi : i = -1
      · rw [if_pos hi] at h
        split at h
        · rename_i hk
          cases h
          exact .inr (.inl ⟨hx, by rw [Relay.ifndxFor, if_pos hi, hk]; rfl, rfl, rfl⟩)
        · rename_i k hk
          cases h
          refine .inr (.inr ⟨hx, rfl, k, ?_, ⟨_, rfl, rfl, rfl, rfl⟩, rfl, rfl⟩)
          rw [Relay.ifndxFor, if_pos hi, hk]
          rfl
      · rw [if_neg hi] at h
        cases h
        exact .inr (.inr ⟨hx, rfl, i, by rw [Relay.ifndxFor, if_neg hi],
          ⟨_, rfl, rfl, rfl, rfl⟩, rfl, rfl⟩)

/-- A face with an address is at an interface. -/
theorem ifndxFor_ne (h : σ.ifndxFor i (some a) = some j) : j ≠ -1 := by
  simp only [Relay.ifndxFor] at h
  split at h
  · obtain ⟨k, -, rfl⟩ := Option.map_eq_some_iff.mp h
    omega
  · rename_i hi
    cases h
    exact hi

theorem oneFacePerPeer_plugs : σ.OneFacePerPeer ↔
    (σ.plugs.Pairwise fun x y => ¬ x.SamePeer y ∧ ¬ y.SamePeer x) ∧
    σ.plugs.Pairwise fun x y => ¬ (x.ifndx = -1 ∧ y.ifndx = -1) := by
  rw [Relay.plugs, List.pairwise_map, List.pairwise_map]
  exact ⟨fun h => ⟨h.peers, h.local⟩, fun h => ⟨h.1, h.2⟩⟩

theorem Relay.OneFacePerPeer.of_plugs (hσ : σ.OneFacePerPeer) (h : τ.plugs = σ.plugs) :
    τ.OneFacePerPeer := by
  rw [oneFacePerPeer_plugs, h]
  exact oneFacePerPeer_plugs.mp hσ

theorem faceRemove_onePerPeer (h : σ.OneFacePerPeer) (f : FaceId) :
    (faceRemove σ f).OneFacePerPeer :=
  ⟨h.peers.filter _, h.local.filter _⟩

/-- A new face, which the search has not found, keeps one face for each peer exactly when its
address is new at its interface. -/
theorem joined_onePerPeer (h : σ.OneFacePerPeer) (hx : σ.faces.find? (·.found i sa) = none)
    (hj : σ.ifndxFor i sa = some j) (hjoin : Joined σ τ j sa) :
    τ.OneFacePerPeer ↔ ∀ a ∈ sa, σ.NewPeer j a := by
  obtain ⟨x, hcons, -, hxj, hxa⟩ := hjoin.faces
  cases sa with
  | none =>
    have hlocal := List.find?_eq_none.mp hx
    refine iff_of_true ⟨?_, ?_⟩ (by simp)
    · rw [hcons, List.pairwise_cons]
      exact ⟨fun y _ => by simp [Face.SamePeer, hxa], h.peers⟩
    · rw [hcons, List.pairwise_cons]
      refine ⟨fun y hy hboth => hlocal y hy ?_, h.local⟩
      simpa [Face.found] using hboth.2
  | some a =>
    have hne := ifndxFor_ne hj
    constructor
    · intro hτ b hb y hy hyj p hp
      cases hb
      have hpair := (List.pairwise_cons.mp (hcons ▸ hτ.peers)).1 y hy
      exact ⟨fun hs => hpair.2 ⟨hyj.trans hxj.symm, p, hp, a, hxa, hs⟩,
        fun hs => hpair.1 ⟨hxj.trans hyj.symm, a, hxa, p, hp, hs⟩⟩
    · intro hnew
      refine ⟨?_, ?_⟩
      · rw [hcons, List.pairwise_cons]
        refine ⟨fun y hy => ⟨?_, ?_⟩, h.peers⟩
        · rintro ⟨hxy, b, hb, p, hp, hs⟩
          cases hxa.symm.trans hb
          exact (hnew a rfl y hy (hxy.symm.trans hxj) p hp).2 hs
        · rintro ⟨hyx, p, hp, b, hb, hs⟩
          cases hxa.symm.trans hb
          exact (hnew a rfl y hy (hyx.trans hxj) p hp).1 hs
      · rw [hcons, List.pairwise_cons]
        exact ⟨fun y _ hboth => hne (hxj.symm.trans hboth.1), h.local⟩

/-- The calls that keep one face for each peer. -/
theorem clear_iff (h : σ.OneFacePerPeer) : c.Clear σ ↔ (c.run σ).OneFacePerPeer := by
  cases c with
  | remove f => exact iff_of_true trivial (faceRemove_onePerPeer h f)
  | get now i sa =>
    obtain ⟨⟨τ, o⟩, hg⟩ : ∃ r, getFaceOrCreate now σ i sa = r := ⟨_, rfl⟩
    have hrun : (FaceCall.get now i sa).run σ = τ := congrArg Prod.fst hg
    rw [hrun]
    rcases getFaceOrCreate_cases hg with
      ⟨x, hx, -, hp, -, -⟩ | ⟨-, hj, rfl, -⟩ | ⟨hx, -, j, hj, hjoin⟩
    · refine iff_of_true ?_ (h.of_plugs hp)
      cases sa with
      | none => trivial
      | some a =>
        obtain ⟨hi, hxi, hpeer⟩ := found_some.mp (List.find?_some hx)
        exact .inl ⟨hi, x, List.mem_of_find?_eq_some hx, hxi, hpeer⟩
    · refine iff_of_true ?_ h
      cases sa with
      | none => trivial
      | some a => exact .inr fun j hj' => by rw [hj] at hj'; cases hj'
    · rw [joined_onePerPeer h hx hj hjoin]
      cases sa with
      | none => exact iff_of_true trivial (by simp)
      | some a =>
        have hnone := List.find?_eq_none.mp hx
        constructor
        · rintro (⟨hi, y, hy, hyi, hpeer⟩ | hnew) b hb
          · exact absurd (found_some.mpr ⟨hi, hyi, hpeer⟩) (hnone y hy)
          · cases hb
            exact hnew j hj
        · intro hnew
          refine .inr fun k hk => ?_
          obtain rfl : j = k := Option.some.inj (hj.symm.trans hk)
          exact hnew a rfl

/-! ## Names of faces -/

/-- No two faces have one number, and the next number is new. -/
structure Relay.Numbered (σ : Relay) : Prop where
  ids : (σ.faces.map (·.faceid)).Nodup
  le : ∀ x ∈ σ.faces, x.faceid ≤ σ.seqno

theorem plugs_ids : σ.faces.map (·.faceid) = σ.plugs.map (·.faceid) := by
  rw [Relay.plugs, List.map_map]
  rfl

theorem numbered_step (h : σ.Numbered) (c : FaceCall) : (c.run σ).Numbered := by
  cases c with
  | remove f =>
    refine ⟨?_, fun x hx => h.le x (List.mem_filter.mp hx).1⟩
    exact h.ids.sublist (List.filter_sublist.map _)
  | get now i sa =>
    obtain ⟨⟨τ, o⟩, hg⟩ : ∃ r, getFaceOrCreate now σ i sa = r := ⟨_, rfl⟩
    have hrun : (FaceCall.get now i sa).run σ = τ := congrArg Prod.fst hg
    rw [hrun]
    rcases getFaceOrCreate_cases hg with
      ⟨-, -, -, hp, hseq, -⟩ | ⟨-, -, rfl, -⟩ | ⟨-, -, j, -, hjoin⟩
    · have hids : τ.faces.map (·.faceid) = σ.faces.map (·.faceid) := by
        rw [plugs_ids, hp, ← plugs_ids]
      refine ⟨hids ▸ h.ids, fun x hx => ?_⟩
      have hmem : x.faceid ∈ σ.faces.map (·.faceid) := hids ▸ List.mem_map_of_mem hx
      obtain ⟨y, hy, hyx⟩ := List.mem_map.mp hmem
      rw [hseq, ← hyx]
      exact h.le y hy
    · exact h
    · obtain ⟨x, hcons, hid, -, -⟩ := hjoin.faces
      refine ⟨?_, fun y hy => ?_⟩
      · rw [hcons, List.map_cons, List.nodup_cons, hid]
        refine ⟨fun hmem => ?_, h.ids⟩
        obtain ⟨y, hy, hyx⟩ := List.mem_map.mp hmem
        exact Nat.not_succ_le_self σ.seqno (hyx.symm.trans_le (h.le y hy))
      · rw [hjoin.seqno]
        rcases List.mem_cons.mp (hcons ▸ hy) with rfl | hy
        · exact Nat.le_of_eq hid
        · exact Nat.le_succ_of_le (h.le y hy)

/-! ## The same face again -/

/-- The face `f` is at the interface that a call is about, with the peer of the call. -/
def Relay.Has (σ : Relay) (f : FaceId) (ifndx : Int) (sa : Option SockAddr) : Prop :=
  ∃ x ∈ σ.faces, x.faceid = f ∧ σ.ifndxFor ifndx sa = some x.ifndx ∧
    ∀ a ∈ sa, ∃ p ∈ x.peer, addrSame p a = true

theorem ifndxFor_ifs (h : τ.ifs = σ.ifs) : τ.ifndxFor i sa = σ.ifndxFor i sa := by
  unfold Relay.ifndxFor
  rw [h]

theorem Relay.Has.of_plugs (h : σ.Has f i sa) (hp : τ.plugs = σ.plugs) (hifs : τ.ifs = σ.ifs) :
    τ.Has f i sa := by
  obtain ⟨x, hx, hf, hi, ha⟩ := h
  have hmem : x.plug ∈ τ.plugs := hp ▸ List.mem_map_of_mem hx
  obtain ⟨y, hy, hyx⟩ := List.mem_map.mp hmem
  have hid : y.faceid = x.faceid := congrArg (·.faceid) hyx
  have hport : y.ifndx = x.ifndx := congrArg (·.ifndx) hyx
  have hpeer : y.peer = x.peer := congrArg (·.peer) hyx
  refine ⟨y, hy, hid.trans hf, ?_, hpeer ▸ ha⟩
  rw [hport, ← hi]
  exact ifndxFor_ifs hifs

/-- The call gets a face that has its peer. -/
theorem get_has (h : getFaceOrCreate now σ i sa = (τ, some f)) : τ.Has f i sa := by
  rcases getFaceOrCreate_cases h with
    ⟨x, hx, hf, hp, -, hifs⟩ | ⟨-, -, -, hf⟩ | ⟨-, hf, j, hj, hjoin⟩
  · cases hf
    have hmem := List.mem_of_find?_eq_some hx
    have hfound := List.find?_some hx
    refine Relay.Has.of_plugs (σ := σ) ⟨x, hmem, rfl, ?_, ?_⟩ hp hifs
    · cases sa with
      | none =>
        have hlocal : x.ifndx = -1 := by simpa [Face.found] using hfound
        rw [hlocal]
        rfl
      | some a =>
        obtain ⟨hi, hxi, -⟩ := found_some.mp hfound
        rw [Relay.ifndxFor, if_neg hi, hxi]
    · intro a ha
      cases ha
      exact (found_some.mp hfound).2.2
  · cases hf
  · cases hf
    obtain ⟨x, hcons, hid, hxj, hxa⟩ := hjoin.faces
    refine ⟨x, hcons ▸ List.mem_cons_self, hid, ?_, fun a ha => ⟨a, hxa.trans ha, addrSame_self a⟩⟩
    rw [hxj, ← hj]
    exact ifndxFor_ifs hjoin.ifs

/-- The face stays until it is removed. -/
theorem has_step (h : σ.Has f i sa) (hc : c ≠ .remove f) : (c.run σ).Has f i sa := by
  cases c with
  | remove g =>
    obtain ⟨x, hx, hf, hrest⟩ := h
    refine ⟨x, List.mem_filter.mpr ⟨hx, ?_⟩, hf, hrest⟩
    have hne : f ≠ g := fun hfg => hc (by rw [hfg])
    simpa [hf] using hne
  | get now k sb =>
    obtain ⟨⟨τ, o⟩, hg⟩ : ∃ r, getFaceOrCreate now σ k sb = r := ⟨_, rfl⟩
    have hrun : (FaceCall.get now k sb).run σ = τ := congrArg Prod.fst hg
    rw [hrun]
    rcases getFaceOrCreate_cases hg with
      ⟨-, -, -, hp, -, hifs⟩ | ⟨-, -, rfl, -⟩ | ⟨-, -, j, -, hjoin⟩
    · exact h.of_plugs hp hifs
    · exact h
    · obtain ⟨x, hx, hf, hi, hpeer⟩ := h
      obtain ⟨y, hcons, -⟩ := hjoin.faces
      refine ⟨x, hcons ▸ List.mem_cons_of_mem _ hx, hf, ?_, hpeer⟩
      rw [ifndxFor_ifs hjoin.ifs, hi]

theorem has_run {cs : List FaceCall} (h : σ.Has f i sa) (hcs : FaceCall.remove f ∉ cs)
    (hr : cs.foldlM (fun σ c => faceCalls.step c σ) σ = .ok τ) : τ.Has f i sa := by
  induction cs generalizing σ with
  | nil => cases hr; exact h
  | cons c cs ih =>
    rw [List.mem_cons, not_or] at hcs
    rw [List.foldlM_cons] at hr
    exact ih (has_step h (Ne.symm hcs.1)) hcs.2 hr

/-- Two link-layer addresses with the bytes of a third one agree up to the shorter length. -/
theorem addrSame_common {p q : SockAddr} (hp : addrSame p a = true) (hq : addrSame q a = true) :
    addrSame p q = true ∨ addrSame q p = true := by
  cases p with
  | packet b n =>
    cases a <;> cases q <;> simp_all only [addrSame, beq_iff_eq, Bool.false_eq_true]
    rename_i a _ c m
    -- below the shorter length both have the bytes of `a`
    rcases Nat.le_total n m with hnm | hmn
    · left
      have htake := congrArg (List.take n) hq
      rw [List.take_take, List.take_take, Nat.min_eq_left hnm] at htake
      exact htake.symm
    · right
      have htake := congrArg (List.take m) hp
      rw [List.take_take, List.take_take, Nat.min_eq_left hmn] at htake
      exact htake.symm
  | inet b n => cases a <;> cases q <;> simp_all [addrSame]
  | inet6 b n => cases a <;> cases q <;> simp_all [addrSame]
  | unix b => cases a <;> cases q <;> simp_all [addrSame]

/-- With one face for each peer the search can stop at one face only. -/
theorem found_one (h : σ.OneFacePerPeer) (hx : x ∈ σ.faces) (hy : y ∈ σ.faces)
    (hfx : x.found i sa = true) (hfy : y.found i sa = true) : x = y := by
  by_contra hxy
  cases sa with
  | none =>
    have hsymm : Std.Symm fun x y : Face => ¬ (x.ifndx = -1 ∧ y.ifndx = -1) :=
      ⟨fun _ _ hne hboth => hne hboth.symm⟩
    simp only [Face.found, beq_iff_eq] at hfx hfy
    exact h.local.forall hx hy hxy ⟨hfx, hfy⟩
  | some a =>
    have hsymm : Std.Symm fun x y : Face => ¬ x.SamePeer y ∧ ¬ y.SamePeer x :=
      ⟨fun _ _ hne => hne.symm⟩
    obtain ⟨-, hxi, p, hp, hpa⟩ := found_some.mp hfx
    obtain ⟨-, hyi, q, hq, hqa⟩ := found_some.mp hfy
    obtain ⟨hxy', hyx'⟩ := h.peers.forall hx hy hxy
    rcases addrSame_common hpa hqa with hpq | hqp
    · exact hxy' ⟨hxi.trans hyi.symm, p, hp, q, hq, hpq⟩
    · exact hyx' ⟨hyi.trans hxi.symm, q, hq, p, hp, hqp⟩

/-- With one face for each peer the call gets the face that has the peer. -/
theorem get_of_has (h : σ.OneFacePerPeer) (hhas : σ.Has f i sa)
    (hc : (FaceCall.get now i sa).Clear σ) : (getFaceOrCreate now σ i sa).2 = some f := by
  obtain ⟨x, hx, hf, hi, hpeer⟩ := hhas
  -- the search stops at `x`, or would, as a call with an address alone is not clear
  have hseen : x.found i sa = true := by
    cases sa with
    | none => exact beq_iff_eq.mpr (Option.some.inj hi).symm
    | some a =>
      obtain ⟨p, hp, hs⟩ := hpeer a rfl
      rcases hc with ⟨hne, -⟩ | hnew
      · rw [Relay.ifndxFor, if_neg hne] at hi
        cases hi
        exact found_some.mpr ⟨hne, rfl, p, hp, hs⟩
      · exact absurd hs (hnew _ hi x hx rfl p hp).1
  obtain ⟨⟨τ, o⟩, hg⟩ : ∃ r, getFaceOrCreate now σ i sa = r := ⟨_, rfl⟩
  rw [hg]
  rcases getFaceOrCreate_cases hg with ⟨y, hy, rfl, -, -, -⟩ | ⟨hnone, -⟩ | ⟨hnone, -⟩
  · obtain rfl : x = y :=
      found_one h hx (List.mem_of_find?_eq_some hy) hseen (List.find?_some hy)
    exact congrArg some hf
  · exact absurd hseen (List.find?_eq_none.mp hnone x hx)
  · exact absurd hseen (List.find?_eq_none.mp hnone x hx)

end Calls

/-! ## Runs -/

theorem faceCalls_keeps :
    faceCalls.KeepsBy FaceCall.Clear fun σ => σ.OneFacePerPeer ∧ σ.Numbered where
  start σ h := by
    change σ.faces = [] at h
    exact ⟨⟨h ▸ .nil, h ▸ .nil⟩, by simp [h], by simp [h]⟩
  step c σ τ h hc hs := by
    cases hs
    exact ⟨(clear_iff h.1).mp hc, numbered_step h.2 c⟩

/-- In a run whose calls are clear, no two faces have the same peer, one face at most is local, and
a call gets the face that the same call got before, unless that face has been removed. A call that
is not clear is one after which there is a second face for a peer. -/
theorem one_face_per_peer {σ : Relay} (hr : faceCalls.ReachableBy FaceCall.Clear σ) :
    (σ.OneFacePerPeer ∧ (σ.faces.map (·.faceid)).Nodup) ∧
    (∀ c : FaceCall, c.Clear σ ↔ (c.run σ).OneFacePerPeer) ∧
    ∀ now now' ifndx sa f σ₁ cs τ, (FaceCall.get now ifndx sa).Clear σ →
      getFaceOrCreate now σ ifndx sa = (σ₁, some f) →
      Along (fun σ c => faceCalls.step c σ) (fun σ c => c.Clear σ) cs σ₁ →
      cs.foldlM (fun σ c => faceCalls.step c σ) σ₁ = .ok τ → FaceCall.remove f ∉ cs →
      (FaceCall.get now' ifndx sa).Clear τ → (getFaceOrCreate now' τ ifndx sa).2 = some f := by
  obtain ⟨hone, hnum⟩ := faceCalls_keeps.reachable hr
  refine ⟨⟨hone, hnum.ids⟩, fun c => clear_iff hone, ?_⟩
  intro now now' ifndx sa f σ₁ cs τ hc hg halong hrun hcs hc'
  have hrun₁ : (FaceCall.get now ifndx sa).run σ = σ₁ := congrArg Prod.fst hg
  have hr₁ : faceCalls.ReachableBy FaceCall.Clear σ₁ := hr.next _ hc (hrun₁ ▸ rfl)
  have hτ := (faceCalls_keeps.reachable (hr₁.run halong hrun)).1
  exact get_of_has hτ (has_run (get_has hg) hcs hrun) hc'

/-- A call for one peer, at an interface. -/
def FaceCall.peer (ifndx : Int) : FaceCall := .get 0 ifndx (some (.inet 7 9695))

/-- Two calls with an address alone: two faces at the interface 0 for one peer. -/
theorem two_faces_per_peer : ¬ ∀ σ : Relay, faceCalls.Reachable σ → σ.OneFacePerPeer := by
  intro h
  have hstart : faceCalls.Reachable .plain := .start (show Relay.plain.faces = [] from rfl)
  have hrun := h _ ((hstart.next (.peer (-1)) rfl).next (.peer (-1)) rfl)
  have hpair := (List.pairwise_cons.mp hrun.peers).1 _ List.mem_cons_self
  exact hpair.1 ⟨rfl, _, rfl, _, rfl, addrSame_self _⟩

/-- A peer at the interface 0, then the local client, then the peer again. -/
theorem one_face_per_peer_again :
    (getFaceOrCreate 9 ((FaceCall.get 1 (-1) none).run ((FaceCall.peer 0).run .plain)) 0
      (some (.inet 7 9695))).2 = some 1 := by
  have hstart : faceCalls.ReachableBy FaceCall.Clear .plain :=
    .start (show Relay.plain.faces = [] from rfl)
  refine (one_face_per_peer hstart).2.2 0 9 0 (some (.inet 7 9695)) 1 _ [.get 1 (-1) none] _
    (.inr fun j _ x hx => ?_) rfl ⟨trivial, fun _ _ => trivial⟩ rfl (by decide) ?_
  · exact absurd hx (List.not_mem_nil)
  · exact .inl ⟨by decide, _, List.mem_cons_of_mem _ List.mem_cons_self, rfl, _, rfl,
      addrSame_self _⟩

end Ccnl
