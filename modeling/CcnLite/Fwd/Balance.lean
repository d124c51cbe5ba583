import CcnLite.Fwd.Handed

/-!
# One Data for one Interest

In any run of the relay a face gets no more Data than it has sent Interests: each Data that goes to
it takes one of its places in a pending list, or answers the Interest that has just come in
(`flow_balance`). And a relay does not flood its neighbours: an Interest that it takes in goes out
at most once when it comes and once for each retransmission, to each entry of the FIB
(`amplification_bounded`).

Both are budgets. What a call hands out and what it leaves in the PIT is no more than what was in
the PIT and what the call has brought (`Call.balance`, `Call.credit`).
-/

namespace Ccnl

open CRun

/-- The places in the pending lists, by their faces. -/
def waiting (pit : List Interest) : List FaceId := pit.flatMap fun i => i.pending.map (·.face)

/-- The call is an Interest from the face. -/
def Call.asks (f : FaceId) : Call → Bool
  | .table (.interest _ _ g _) => g == f
  | _ => false

/-! ## Places in the pending lists -/

section Waiting

variable {digest : List UInt8 → Digest} {pit : List Interest} {f g : FaceId} {now : Nat}

@[simp] theorem waiting_nil : waiting [] = [] := rfl

@[simp] theorem waiting_cons (i : Interest) (pit : List Interest) :
    waiting (i :: pit) = i.pending.map (·.face) ++ waiting pit := rfl

theorem edited_served (digest : List UInt8 → Digest) (c : Content) (pit : List Interest) :
    edited [servedEdit digest c] pit = pit.filter fun i => ¬ Matches digest i c := by
  show pit.filterMap (Option.guard fun i => decide ¬ Matches digest i c) = _
  rw [List.filterMap_eq_filter]

/-- The faces that a content answers, and those that go on waiting. -/
theorem count_waiting (digest : List UInt8 → Digest) (c : Content) (pit : List Interest)
    (f : FaceId) :
    (answered digest c pit).count f + (waiting (edited [servedEdit digest c] pit)).count f =
      (waiting pit).count f := by
  rw [edited_served]
  induction pit with
  | nil => rfl
  | cons i pit ih =>
    by_cases hm : Matches digest i c <;>
      simp only [answered, List.filter_cons, hm, decide_true, decide_false, not_true_eq_false,
        not_false_eq_true, Bool.false_eq_true, ↓reduceIte, List.flatMap_cons, waiting_cons,
        List.count_append] at ih ⊢ <;> omega

theorem count_faceClean (f g : FaceId) (pit : List Interest) :
    (waiting (edited [faceCleanEdit g] pit)).count f ≤ (waiting pit).count f := by
  show (waiting (pit.filterMap (faceClean g))).count f ≤ _
  induction pit with
  | nil => exact Nat.le_refl _
  | cons i pit ih =>
    have hfew : ((i.pending.filter (·.face != g)).map (·.face)).count f ≤
        (i.pending.map (·.face)).count f :=
      (List.filter_sublist.map _).count_le f
    rw [List.filterMap_cons]
    simp only [faceClean]
    split <;> rename_i hclean
    · rw [waiting_cons, List.count_append]
      omega
    · split at hclean
      · cases hclean
      · cases hclean
        simp only [waiting_cons, List.count_append]
        omega

/-- A face joins an entry at most once. -/
theorem count_append (i : Interest) (f g : FaceId) :
    ((interestAppendPending now i g).pending.map (·.face)).count f ≤
      (i.pending.map (·.face)).count f + if g = f then 1 else 0 := by
  unfold interestAppendPending
  split
  · have hsame : (i.pending.map fun pi =>
        if pi.face = g then { pi with lastUsed := u32 now } else pi).map (·.face) =
        i.pending.map (·.face) := by
      rw [List.map_map]
      refine List.map_congr_left fun pi _ => ?_
      by_cases h : pi.face = g <;> simp [h]
    simp only [hsame]
    omega
  · simp only [List.map_append, List.map_cons, List.map_nil, List.count_append]
    rw [List.count_singleton]
    simp

theorem count_modify (pit : List Interest) (k : Nat) (f g : FaceId) :
    (waiting (pit.modify k (interestAppendPending now · g))).count f ≤
      (waiting pit).count f + if g = f then 1 else 0 := by
  induction pit generalizing k with
  | nil => simp
  | cons i pit ih =>
    cases k with
    | zero =>
      have hi := @count_append now i f g
      simp only [List.modify_zero_cons, waiting_cons, List.count_append]
      omega
    | succ k =>
      have hk := ih k
      simp only [List.modify_succ_cons, waiting_cons, List.count_append]
      omega

theorem count_aged (t : Nat) (pit : List Interest) (f : FaceId) :
    (waiting (pit.filterMap (ageInterest t))).count f ≤ (waiting pit).count f := by
  induction pit with
  | nil => exact Nat.le_refl _
  | cons i pit ih =>
    rw [List.filterMap_cons]
    split
    · rw [waiting_cons, List.count_append]
      omega
    · rename_i j hj
      obtain ⟨-, -, rfl⟩ := ageInterest_eq_some hj
      simp only [waiting_cons, List.count_append]
      omega

end Waiting

/-! ## Data for Interests -/

section Data

variable {E : Env} {now : Nat} {σ τ : Relay} {f g : FaceId} {pkt : Pkt}

/-- The Data of a walk over the PIT takes the places of the faces that it goes to. -/
theorem served_balance {digest : List UInt8 → Digest} {c : Content} {s : Serving}
    (hs : servePending digest σ c = .ok s) (f : FaceId) :
    (served digest σ c).countP (Handout.isDataTo f) +
        (waiting (edited [servedEdit digest c] σ.pit)).count f ≤
      (waiting σ.pit).count f := by
  obtain ⟨sent, hsent, hnd, hmem, -⟩ := served_eq hs
  have hcount : (served digest σ c).countP (Handout.isDataTo f) = sent.count f := by
    rw [hsent, List.countP_map]
    rfl
  have hone : sent.count f ≤ (answered digest c σ.pit).count f := by
    by_cases hf : f ∈ sent
    · rw [List.count_eq_one_of_mem hnd hf]
      exact List.count_pos_iff.mpr ((hmem f).mp hf).1
    · rw [List.count_eq_zero_of_not_mem hf]
      exact Nat.zero_le _
  have hsum := count_waiting digest c σ.pit f
  omega

theorem forwards_noData (σ : Relay) (i : Interest) (f : FaceId) :
    (forwards σ i).countP (Handout.isDataTo f) = 0 := by
  rw [List.countP_eq_zero]
  intro h hh
  obtain ⟨fwd, -, hh⟩ := List.mem_flatMap.mp hh
  unfold forwarded at hh
  cases htap : fwd.tap <;> cases hface : fwd.face <;> simp [htap, hface] at hh
  · simp [hh]
  · simp [hh]
  · rcases hh with rfl | rfl <;> simp

theorem pitInsert_noData : (pitInsertHands now σ g pkt).countP (Handout.isDataTo f) = 0 := by
  unfold pitInsertHands
  split
  · rfl
  · split
    · exact forwards_noData _ _ f
    · rfl

theorem count_interestNew (now : Nat) (σ : Relay) («from» : FaceId) (pkt : Pkt)
    (write : Interest → Interest) (f : FaceId) {n : Nat}
    (hw : ∀ i : Interest, i.pending = [] → ((write i).pending.map (·.face)).count f ≤ n) :
    (waiting (edited (interestNewEdits now σ «from» pkt write) σ.pit)).count f ≤
      (waiting σ.pit).count f + n := by
  unfold interestNewEdits
  cases hn : interestNew now σ «from» pkt with
  | none => exact Nat.le_add_right _ _
  | some r =>
    have hr := hw r.2 (interestNew_eq hn).2.2.2.2
    show (waiting (write r.2 :: σ.pit)).count f ≤ _
    rw [waiting_cons, List.count_append]
    omega

theorem mgmtOp_balance {op : MgmtOp} (h : op.run E now g σ = .ok τ) (f : FaceId) :
    (op.hands E now g σ).countP (Handout.isDataTo f) + (waiting τ.pit).count f ≤
      (waiting σ.pit).count f := by
  rw [mgmtOp_pit h]
  cases op with
  | faceRemove g' => simpa [MgmtOp.hands, MgmtOp.pitEdits] using count_faceClean f g' σ.pit
  | contentAdd p pkt =>
    obtain ⟨s, hs, -⟩ := (bind_eq_ok _ _ _).mp h
    exact served_balance hs f
  | interestNew p pkt =>
    have hnew := count_interestNew now σ g { pkt with pfx := some p } id f (n := 0)
      fun i hi => by simp [hi]
    simp only [MgmtOp.hands, MgmtOp.pitEdits, List.countP_nil]
    omega
  | _ => simp [MgmtOp.hands, MgmtOp.pitEdits, Handout.isDataTo]

theorem mgmt_balance {ops : List MgmtOp} (h : ops.foldlM (MgmtOp.run E now g) σ = .ok τ)
    (f : FaceId) :
    (mgmtHands E now g ops σ).countP (Handout.isDataTo f) + (waiting τ.pit).count f ≤
      (waiting σ.pit).count f := by
  have hbudget := written_budget (w := MgmtOp.hands E now g) (P := fun _ _ => True)
    (p := Handout.isDataTo f) (q := fun _ => false) (n := 0)
    (m := fun σ : Relay => (waiting σ.pit).count f)
    (fun _ _ _ _ ho => mgmtOp_balance ho f) (Along.of_forall (fun _ _ => trivial) ops σ) h
  simpa [mgmtHands] using hbudget

theorem pitInsert_balance {r : Option Relay} (h : pitInsert now σ g pkt = .ok r) (f : FaceId) :
    (waiting (r.getD σ).pit).count f ≤ (waiting σ.pit).count f + if g = f then 1 else 0 := by
  rw [pitInsert_pit h]
  unfold pitInsertEdits
  split
  · exact Nat.le_add_right _ _
  · split
    · exact count_modify σ.pit _ f g
    · refine count_interestNew now σ g pkt _ f fun i hi => ?_
      have hjoin := @count_append now i f g
      simpa [hi] using hjoin

theorem handleInterest_balance {cMatch : Pkt → Content → Run Bool} {b : Bool}
    (h : handleInterest E now cMatch σ g pkt = .ok (τ, b)) (f : FaceId) :
    (interestHands E now cMatch σ g pkt).countP (Handout.isDataTo f) + (waiting τ.pit).count f ≤
      (waiting σ.pit).count f + if g = f then 1 else 0 := by
  have hnonce : ∀ σ₁, nonceIsDup σ pkt = some σ₁ → σ₁.pit = σ.pit := fun σ₁ hn => by
    obtain ⟨ns, rfl⟩ := nonceIsDup_eq hn
    rfl
  unfold interestHands
  cases handleInterest_handled h with
  | dup hx hn => simp [hx, hn]
  | mgmt hx hn hm h₂ =>
    have hmgmt := mgmt_balance h₂ f
    simp only [hx, hn, hm, ← hnonce _ hn]
    omega
  | @hit x σ₁ _ c hx hn hm hc h₂ =>
    have hpit : τ.pit = σ.pit := (congrArg Tables.pit (deliver_tables h₂)).trans (hnonce _ hn)
    have hone : (delivered x c.pkt).countP (Handout.isDataTo f) ≤ if g = f then 1 else 0 := by
      rw [← Relay.faceid_of_face hx]
      unfold delivered
      split <;> simp [Handout.isDataTo, List.countP_cons]
    simp only [hx, hn, hm, hc, hpit]
    omega
  | drop hx hn hm hc hr =>
    simp only [hx, hn, hm, hc, pitInsert_noData, ← hnonce _ hn]
    omega
  | insert hx hn hm hc hr =>
    simp only [hx, hn, hm, hc, pitInsert_noData, ← hnonce _ hn]
    simpa using pitInsert_balance hr f

theorem count_faceRemoves (fs : List Face) (pit : List Interest) (f : FaceId) :
    (waiting (edited (fs.map (faceCleanEdit ·.faceid)) pit)).count f ≤ (waiting pit).count f := by
  induction fs generalizing pit with
  | nil => exact Nat.le_refl _
  | cons x fs ih => exact (ih _).trans (count_faceClean f x.faceid pit)

theorem ageing_balance (now : Nat) (σ : Relay) (f : FaceId) :
    (waiting (edited (ageingEdits (u32 now) σ) σ.pit)).count f ≤ (waiting σ.pit).count f :=
  (count_faceRemoves _ (σ.pit.filterMap (ageInterest (u32 now))) f).trans (count_aged _ _ f)

theorem ageing_noData (now : Nat) (σ : Relay) (f : FaceId) :
    ((TableEvent.ageing now).hands E σ).countP (Handout.isDataTo f) = 0 := by
  rw [List.countP_eq_zero]
  intro o ho
  obtain ⟨i, -, ho⟩ := List.mem_flatMap.mp ho
  exact List.countP_eq_zero.mp (forwards_noData σ i f) o ho

theorem csAdd_balance {c : Content} {b : Bool} (h : csAdd E.digest σ c = .ok (τ, b)) (f : FaceId) :
    ((TableEvent.csAdd c).hands E σ).countP (Handout.isDataTo f) + (waiting τ.pit).count f ≤
      (waiting σ.pit).count f := by
  rw [csAdd_pit h]
  obtain ⟨⟨σ₁, new⟩, h₁, h⟩ := (bind_eq_ok _ _ _).mp h
  obtain ⟨known, hk, h₂⟩ := (bind_eq_ok _ _ _).mp h₁
  obtain ⟨σ₂, h₃, h₂⟩ := (bind_eq_ok _ _ _).mp h₂
  cases h₂
  simp only [TableEvent.hands, TableEvent.pitEdits, h₁, hk]
  cases known with
  | true => simp
  | false =>
    obtain ⟨s, hs, -⟩ := (bind_eq_ok _ _ _).mp h
    have hserved := served_balance hs f
    rw [contentAdd2cache_pit h₃] at hserved
    simpa using hserved

/-- Data that a call hands to a face takes a place of the face in the PIT, or answers the Interest
from the face that the call is. -/
theorem Call.balance {c : Call} (h : (calls E).step c σ = .ok τ) (f : FaceId) :
    (c.hands E σ).countP (Handout.isDataTo f) + (waiting τ.pit).count f ≤
      (waiting σ.pit).count f + if c.asks f then 1 else 0 := by
  have hquiet : c.hands E σ = [] → c.pitEdits E σ = [] →
      (c.hands E σ).countP (Handout.isDataTo f) + (waiting τ.pit).count f ≤
        (waiting σ.pit).count f + if c.asks f then 1 else 0 := fun hh hp => by
    rw [Call.pit h, hh, hp, edited_nil, List.countP_nil]
    omega
  cases c with
  | table e =>
    cases e with
    | interest now cMatch g pkt =>
      obtain ⟨⟨σ₁, b⟩, h₁, rfl⟩ := (map_eq_ok _ _ _).mp h
      have hint := handleInterest_balance h₁ f
      simp only [Call.hands, TableEvent.hands, Call.asks, beq_iff_eq]
      exact hint
    | content now pkt =>
      rw [Call.pit h]
      simp only [Call.hands, Call.pitEdits, TableEvent.hands, TableEvent.pitEdits]
      cases handleContent_handled h with
      | dup hk => simp [hk]
      | unsolicited hk hs | cached hk hs | served hk hs =>
        have hserved := served_balance hs f
        simp only [hk, Except.ok.injEq, Bool.false_eq_true, ↓reduceIte]
        omega
    | ageing now =>
      rw [Call.pit h]
      simp only [Call.hands, ageing_noData, Nat.zero_add]
      exact (ageing_balance now σ f).trans (Nat.le_add_right _ _)
    | faceRemove g =>
      have hclean := count_faceClean f g σ.pit
      rw [Call.pit h]
      simp only [Call.hands, TableEvent.hands, Call.pitEdits, TableEvent.pitEdits, List.countP_nil]
      omega
    | csAdd c =>
      obtain ⟨⟨σ₁, b⟩, h₁, rfl⟩ := (map_eq_ok _ _ _).mp h
      exact (csAdd_balance h₁ f).trans (Nat.le_add_right _ _)
    | _ => exact hquiet rfl rfl
  | enqueue g buf =>
    rw [Call.pit h]
    simp [Call.hands, Call.pitEdits, Handout.isDataTo]
  | _ => exact hquiet rfl rfl

/-- In every run of the relay, a face gets no more Data than it has sent Interests: the Data that
have gone to the face and the places that it still has in the PIT are no more than the Interests
that have come from it and the places that it had at the start. -/
theorem flow_balance {cs : List Call} (h : cs.foldlM (fun σ c => (calls E).step c σ) σ = .ok τ) :
    τ.out = σ.out ++ (history E cs σ).map Handout.out ∧
    ∀ f, (history E cs σ).countP (Handout.isDataTo f) + (waiting τ.pit).count f ≤
      (waiting σ.pit).count f + cs.countP (Call.asks f) := by
  refine ⟨history_out h, fun f => ?_⟩
  have hbudget := written_budget (w := Call.hands E) (P := fun _ _ => True)
    (p := Handout.isDataTo f) (q := Call.asks f) (n := 1)
    (m := fun σ : Relay => (waiting σ.pit).count f)
    (fun _ _ _ _ hc => Call.balance hc f) (Along.of_forall (fun _ _ => trivial) cs σ) h
  rwa [Nat.one_mul] at hbudget

/-- A face asks for `/a`, and the Data comes. -/
theorem flow_balance_one :
    let name := Prefix.ofComps .ndntlv [[97]]
    let ask : Pkt :=
      { pfx := some name, s := .ndntlv { maxsuffix := 64, scope := 3 }, suite := .ndntlv }
    let answer : Pkt := { pfx := some name, s := .ndntlv {}, suite := .ndntlv }
    let cs : List Call :=
      [.table (.interest 0 (fun _ _ => .ok false) 1 ask), .table (.content 0 answer)]
    let σ : Relay := { faces := [{ faceid := 1, ifndx := 0 }] }
    (history .still cs σ).countP (Handout.isDataTo 1) = 1 ∧
      ∃ τ : Relay, 1 + (waiting τ.pit).count 1 ≤ 0 + cs.countP (Call.asks 1) := by
  intro name ask answer cs σ
  have hdata : (history .still cs σ).countP (Handout.isDataTo 1) = 1 := by decide +kernel
  obtain ⟨τ, hτ, -⟩ := exists_ok (x := cs.foldlM (fun σ c => (calls .still).step c σ) σ)
    (p := fun _ => True) (by decide +kernel)
  have hflow := (flow_balance hτ).2 1
  rw [hdata] at hflow
  exact ⟨hdata, τ, hflow⟩

end Data

/-! ## Interests for Interests -/

/-- The call is an Interest. -/
def Call.isInterest : Call → Bool
  | .table (.interest ..) => true
  | _ => false

/-- The call is not a management Interest that makes PIT entries of its own (`addcacheobject`). -/
def Call.MakesNone (E : Env) (σ : Relay) : Call → Prop
  | .table (.interest _ _ f pkt) => ∀ σ₁, nonceIsDup σ pkt = some σ₁ → isMgmt pkt = .ok true →
      ∀ op ∈ E.mgmt σ₁ pkt f, ∀ p q, op ≠ .interestNew p q
  | _ => True

/-- How often the timer can still forward the entries of the PIT again. -/
def resendsLeft (pit : List Interest) : Nat :=
  (pit.map fun i => maxInterestRetransmit - i.retries).sum

def isCons : ListEdit Interest → Bool
  | .cons _ => true
  | _ => false

section Interests

variable {E : Env} {now F : Nat} {σ τ : Relay} {f : FaceId} {pkt : Pkt}

@[simp] theorem resendsLeft_cons (i : Interest) (pit : List Interest) :
    resendsLeft (i :: pit) = maxInterestRetransmit - i.retries + resendsLeft pit := by
  simp [resendsLeft]

/-- An edit that keeps the entries keeps what is left of their retransmissions. -/
theorem resendsLeft_edit {e : ListEdit Interest} (he : Quiet e) (pit : List Interest) :
    resendsLeft (e.run pit) ≤
      resendsLeft pit + maxInterestRetransmit * if isCons e then 1 else 0 := by
  cases e with
  | cons i =>
    show resendsLeft (i :: pit) ≤ _
    have hnew := (he.new i rfl).retries
    simp [isCons, hnew, Nat.add_comm]
  | modify k g =>
    show resendsLeft (pit.modify k g) ≤ _
    have hkeep : ∀ i, (g i).retries = i.retries := fun i => (he.turns i (g i) (.inr rfl)).retries
    have hsame : (pit.modify k g).map (fun i => maxInterestRetransmit - i.retries) =
        pit.map fun i => maxInterestRetransmit - i.retries := by
      rw [@Roster.map_modify _ _ _ _ id (fun i => by rw [hkeep, id]), List.modify_id]
    simp [resendsLeft, hsame]
  | filterMap g =>
    show resendsLeft (pit.filterMap g) ≤ _
    have hkeep : ∀ i j, g i = some j → j.retries = i.retries := fun i j h => (he.turns i j h).retries
    simp only [isCons, Bool.false_eq_true, ↓reduceIte, Nat.mul_zero, Nat.add_zero]
    induction pit with
    | nil => exact Nat.le_refl _
    | cons i pit ih =>
      rw [List.filterMap_cons, resendsLeft_cons]
      split
      · omega
      · rename_i j hj
        rw [resendsLeft_cons, hkeep i j hj]
        omega

theorem resendsLeft_edited {es : List (ListEdit Interest)} (hes : ∀ e ∈ es, Quiet e)
    (pit : List Interest) :
    resendsLeft (edited es pit) ≤ resendsLeft pit + maxInterestRetransmit * es.countP isCons := by
  induction es generalizing pit with
  | nil => exact Nat.le_refl _
  | cons e es ih =>
    have hfirst := resendsLeft_edit (hes e List.mem_cons_self) pit
    have hrest := ih (fun d hd => hes d (List.mem_cons_of_mem _ hd)) (e.run pit)
    rw [List.countP_cons, Nat.mul_add]
    exact hrest.trans (by omega)

/-- The timer takes one retransmission from each entry that it forwards again. -/
theorem resendsLeft_aged (t : Nat) (pit : List Interest) :
    (resends t pit).length + resendsLeft (pit.filterMap (ageInterest t)) ≤ resendsLeft pit := by
  induction pit with
  | nil => exact Nat.le_refl _
  | cons i pit ih =>
    unfold resends at ih ⊢
    rw [List.filterMap_cons, List.filter_cons, resendsLeft_cons]
    cases hi : ageInterest t i with
    | none =>
      simp only [Option.isSome_none, Bool.false_eq_true, ↓reduceIte]
      omega
    | some j =>
      obtain ⟨-, hr, rfl⟩ := ageInterest_eq_some hi
      simp only [Option.isSome_some, ↓reduceIte, List.length_cons, resendsLeft_cons]
      omega

/-- An Interest goes to a FIB entry at most once. -/
theorem forwards_count (σ : Relay) (i : Interest) :
    (forwards σ i).countP Handout.isInterest ≤ σ.fib.length := by
  have hone : ∀ fwd : Forward, (forwarded i.pkt fwd).countP Handout.isInterest ≤ 1 := fun fwd => by
    unfold forwarded
    cases fwd.tap <;> cases fwd.face <;> simp [Handout.isInterest, List.countP_cons]
  refine Nat.le_trans ?_ (List.length_filter_le (fun fwd => fwd.serves σ i) σ.fib)
  unfold forwards
  induction σ.fib.filter (fun fwd => fwd.serves σ i) with
  | nil => exact Nat.le_refl _
  | cons fwd fib ih =>
    have h := hone fwd
    rw [List.flatMap_cons, List.countP_append, List.length_cons]
    omega

theorem served_noInterest (digest : List UInt8 → Digest) (σ : Relay) (c : Content) :
    (served digest σ c).countP Handout.isInterest = 0 := by
  unfold served
  split
  · rw [List.countP_map]
    exact List.countP_eq_zero.mpr fun _ _ => Bool.false_ne_true
  · rfl

theorem mgmt_noInterest {ops : List MgmtOp} :
    (mgmtHands E now f ops σ).countP Handout.isInterest = 0 := by
  unfold mgmtHands
  induction ops generalizing σ with
  | nil => rfl
  | cons op ops ih =>
    have hop : (op.hands E now f σ).countP Handout.isInterest = 0 := by
      cases op with
      | contentAdd p pkt => exact served_noInterest _ _ _
      | _ => rfl
    rw [written, List.countP_append, hop, Nat.zero_add]
    split
    · exact ih
    · rfl

theorem pitInsert_count (now : Nat) (σ : Relay) (f : FaceId) (pkt : Pkt) :
    (pitInsertHands now σ f pkt).countP Handout.isInterest ≤ σ.fib.length := by
  unfold pitInsertHands
  split
  · exact Nat.zero_le _
  · split
    · rename_i hn
      obtain ⟨-, -, rfl⟩ := interestNew_some hn
      exact forwards_count _ _
    · exact Nat.zero_le _

theorem interestHands_count (E : Env) (now : Nat) (cMatch : Pkt → Content → Run Bool) (σ : Relay)
    (f : FaceId) (pkt : Pkt) :
    (interestHands E now cMatch σ f pkt).countP Handout.isInterest ≤ σ.fib.length := by
  unfold interestHands
  split
  · rename_i x σ₁ hx hn
    obtain ⟨ns, rfl⟩ := nonceIsDup_eq hn
    split
    · rw [mgmt_noInterest]
      exact Nat.zero_le _
    · unfold delivered
      split <;> exact Nat.zero_le _
    · exact pitInsert_count now _ f pkt
    · exact Nat.zero_le _
  · exact Nat.zero_le _

/-- Only an Interest and the timer make Interests go out. -/
theorem Call.interests_count {c : Call} (hc : ∀ now, c ≠ .ageing now) (E : Env) (σ : Relay) :
    (c.hands E σ).countP Handout.isInterest ≤ if c.isInterest then σ.fib.length else 0 := by
  cases c with
  | table e =>
    cases e with
    | interest now cMatch f pkt => exact interestHands_count E now cMatch σ f pkt
    | content now pkt =>
      simp only [Call.hands, TableEvent.hands]
      split
      · exact Nat.zero_le _
      · rw [served_noInterest]
        exact Nat.zero_le _
    | ageing now => exact absurd rfl (hc now)
    | csAdd c =>
      simp only [Call.hands, TableEvent.hands]
      split
      · rw [served_noInterest]
        exact Nat.zero_le _
      · exact Nat.zero_le _
    | _ => exact Nat.zero_le _
  | _ => exact Nat.zero_le _

theorem mgmtPitEdits_noCons {ops : List MgmtOp} (h : ∀ op ∈ ops, ∀ p q, op ≠ .interestNew p q) :
    (mgmtPitEdits E now f ops σ).countP isCons = 0 := by
  induction ops generalizing σ with
  | nil => rfl
  | cons op ops ih =>
    have hop : (op.pitEdits E now f σ).countP isCons = 0 := by
      cases op with
      | interestNew p q => exact absurd rfl (h _ List.mem_cons_self p q)
      | _ => rfl
    rw [mgmtPitEdits, List.countP_append, hop, Nat.zero_add]
    split
    · exact ih fun op hop => h op (List.mem_cons_of_mem _ hop)
    · rfl

theorem pitInsertEdits_count (now : Nat) (σ : Relay) (f : FaceId) (pkt : Pkt) :
    (pitInsertEdits now σ f pkt).countP isCons ≤ 1 := by
  unfold pitInsertEdits
  split
  · exact Nat.zero_le _
  · split
    · exact Nat.zero_le _
    · unfold interestNewEdits
      split
      · exact Nat.le_refl _
      · exact Nat.zero_le _

/-- An Interest makes one PIT entry at most. -/
theorem Call.news_count {c : Call} (hc : ∀ now, c ≠ .ageing now) (hm : c.MakesNone E σ) :
    (c.pitEdits E σ).countP isCons ≤ if c.isInterest then 1 else 0 := by
  cases c with
  | table e =>
    cases e with
    | interest now cMatch f pkt =>
      show (interestPitEdits E now cMatch σ f pkt).countP isCons ≤ 1
      unfold interestPitEdits
      split
      · exact Nat.zero_le _
      · rename_i σ₁ hn
        split
        · rename_i hmgmt
          rw [mgmtPitEdits_noCons (hm σ₁ hn hmgmt)]
          exact Nat.zero_le _
        · exact pitInsertEdits_count now σ₁ f pkt
        · exact Nat.zero_le _
    | ageing now => exact absurd rfl (hc now)
    | content now pkt =>
      simp only [Call.pitEdits, TableEvent.pitEdits]
      split <;> exact Nat.zero_le _
    | csAdd c =>
      simp only [Call.pitEdits, TableEvent.pitEdits]
      split <;> exact Nat.zero_le _
    | _ => exact Nat.zero_le _
  | _ => exact Nat.zero_le _

theorem resendsLeft_faceRemoves (fs : List Face) (pit : List Interest) :
    resendsLeft (edited (fs.map (faceCleanEdit ·.faceid)) pit) ≤ resendsLeft pit := by
  have hcount : (fs.map (faceCleanEdit ·.faceid)).countP isCons = 0 := by
    rw [List.countP_map]
    exact List.countP_eq_zero.mpr fun _ _ => Bool.false_ne_true
  have hquiet : ∀ e ∈ fs.map (faceCleanEdit ·.faceid), Quiet e := fun e he => by
    obtain ⟨x, -, rfl⟩ := List.mem_map.mp he
    exact faceCleanEdit_quiet x.faceid
  have hleft := resendsLeft_edited hquiet pit
  simpa [hcount] using hleft

theorem ageing_credit {now : Nat} (hF : σ.fib.length ≤ F)
    (h : (calls E).step (.ageing now) σ = .ok τ) :
    (Call.hands E σ (.ageing now)).countP Handout.isInterest + F * resendsLeft τ.pit ≤
      F * resendsLeft σ.pit := by
  have hsent : (Call.hands E σ (.ageing now)).countP Handout.isInterest ≤
      F * (resends (u32 now) σ.pit).length := by
    show ((resends (u32 now) σ.pit).flatMap (forwards σ)).countP Handout.isInterest ≤ _
    induction resends (u32 now) σ.pit with
    | nil => exact Nat.zero_le _
    | cons i l ih =>
      have hi := (forwards_count σ i).trans hF
      rw [List.flatMap_cons, List.countP_append, List.length_cons, Nat.mul_succ]
      omega
  have hpit : resendsLeft τ.pit ≤ resendsLeft (σ.pit.filterMap (ageInterest (u32 now))) := by
    rw [Call.pit h]
    exact resendsLeft_faceRemoves _ _
  calc _ ≤ F * (resends (u32 now) σ.pit).length +
        F * resendsLeft (σ.pit.filterMap (ageInterest (u32 now))) :=
        Nat.add_le_add hsent (Nat.mul_le_mul_left F hpit)
    _ = F * ((resends (u32 now) σ.pit).length +
        resendsLeft (σ.pit.filterMap (ageInterest (u32 now)))) := (Nat.mul_add ..).symm
    _ ≤ F * resendsLeft σ.pit := Nat.mul_le_mul_left F (resendsLeft_aged _ _)

/-- Interests go out for the Interest that the call is, and for the retransmissions that are left. -/
theorem Call.credit {c : Call} (hF : σ.fib.length ≤ F) (hm : c.MakesNone E σ)
    (h : (calls E).step c σ = .ok τ) :
    (c.hands E σ).countP Handout.isInterest + F * resendsLeft τ.pit ≤
      F * resendsLeft σ.pit + if c.isInterest then F * (1 + maxInterestRetransmit) else 0 := by
  by_cases hc : ∃ now, c = .ageing now
  · obtain ⟨now, rfl⟩ := hc
    exact (ageing_credit hF h).trans (Nat.le_add_right _ _)
  · have hc : ∀ now, c ≠ .ageing now := fun now he => hc ⟨now, he⟩
    have hsent := Call.interests_count hc E σ
    have hnews := Call.news_count hc hm
    have hleft := resendsLeft_edited (Call.pitEdits_quiet (E := E) (σ := σ) hc) σ.pit
    rw [← Call.pit h] at hleft
    have hmul := Nat.mul_le_mul_left F hleft
    split at hsent <;> rename_i hint <;> simp only [hint, ↓reduceIte, Bool.false_eq_true] at hnews ⊢
    · have hmade := Nat.mul_le_mul_left F (Nat.mul_le_mul_left maxInterestRetransmit hnews)
      simp only [Nat.mul_add, Nat.mul_one] at hmul hmade ⊢
      omega
    · rw [Nat.le_zero.mp hnews, Nat.mul_zero, Nat.add_zero] at hmul
      omega

/-- In every run in which the FIB never has more than `F` entries and no management command puts
Interests into the PIT, the relay sends at most `8 * F` Interests for each one that it takes in:
one to each entry of the FIB when it comes, and one for each of its retransmissions. -/
theorem amplification_bounded {cs : List Call}
    (hP : Along (fun σ c => (calls E).step c σ)
      (fun σ c => σ.fib.length ≤ F ∧ c.MakesNone E σ) cs σ)
    (h : cs.foldlM (fun σ c => (calls E).step c σ) σ = .ok τ) :
    (history E cs σ).countP Handout.isInterest + F * resendsLeft τ.pit ≤
      F * resendsLeft σ.pit + F * (1 + maxInterestRetransmit) * cs.countP Call.isInterest :=
  written_budget (w := Call.hands E) (p := Handout.isInterest) (q := Call.isInterest)
    (m := fun σ : Relay => F * resendsLeft σ.pit)
    (fun _ _ _ hP hc => Call.credit hP.1 hP.2 hc) hP h

theorem makesNone_still (c : Call) (σ : Relay) : c.MakesNone .still σ := by
  cases c with
  | table e =>
    cases e with
    | interest => exact fun _ _ _ op hop => absurd hop List.not_mem_nil
    | _ => trivial
  | _ => trivial

/-- An Interest for `/a` that goes out over one FIB entry, and once more with the timer. -/
theorem amplification_bounded_one :
    let name := Prefix.ofComps .ndntlv [[97]]
    let ask : Pkt :=
      { pfx := some name
        s := .ndntlv { maxsuffix := 64, scope := 3, interestlifetime := 4000 }
        suite := .ndntlv }
    let cs : List Call :=
      [.table (.interest 0 (fun _ _ => .ok false) 1 ask), .ageing 1, .ageing 2]
    let σ : Relay :=
      { faces := [{ faceid := 1, ifndx := 0, static := true },
          { faceid := 2, ifndx := 0, static := true }]
        fib := [{ pfx := some name, suite := .ndntlv, face := some 2 }] }
    (history .still cs σ).countP Handout.isInterest = 3 ∧
      ∃ τ : Relay, 3 + 1 * resendsLeft τ.pit ≤
        1 * resendsLeft σ.pit + 1 * (1 + maxInterestRetransmit) * cs.countP Call.isInterest := by
  intro name ask cs σ
  have hsent : (history .still cs σ).countP Handout.isInterest = 3 := by decide +kernel
  have hfib : Along (fun σ c => (calls .still).step c σ) (fun σ _ => σ.fib.length ≤ 1) cs σ := by
    decide +kernel
  have hP := hfib.and (.of_forall (fun σ c => makesNone_still c σ) cs σ)
  obtain ⟨τ, hτ, -⟩ := exists_ok (x := cs.foldlM (fun σ c => (calls .still).step c σ) σ)
    (p := fun _ => True) (by decide +kernel)
  have hbound := amplification_bounded hP hτ
  rw [hsent] at hbound
  exact ⟨hsent, τ, hbound⟩

end Interests

end Ccnl
