import Hypersnap.Consensus.ReadValidator

/-!
# `Consensus.ReadOrder` — in which order a read node commits

What one call does is said once, by `Applied`: the node commits a list of values whose heights follow its last
height one by one. From it and the invariant of the buffer (`Buffered`) the order over whole runs follows
(`read_commits_in_order`), and so does what a committed value has been checked for (`read_commits_certified`).
-/

namespace Hypersnap

/-! ## Heights that follow each other -/

namespace Height

def following (h : Height) : Nat → List Height
  | 0 => []
  | n + 1 => h.increment :: h.increment.following n

theorem following_add (h : Height) (m n : Nat) :
    h.following (m + n) = h.following m ++ (Height.increment^[m] h).following n := by
  induction m generalizing h with
  | zero => simp [following]
  | succ m ih =>
    rw [Nat.add_right_comm, following, following, ih, Function.iterate_succ_apply, List.cons_append]

theorem iterate_increment (h : Height) (n : Nat) :
    Height.increment^[n] h = ⟨h.shardIndex, h.blockNumber + UInt64.ofNat n⟩ := by
  induction n with
  | zero => simp
  | succ n ih =>
    rw [Function.iterate_succ_apply', ih]
    simp [increment, incrementBy, UInt64.ofNat_add, UInt64.add_assoc]

theorem following_eq_map (h : Height) (n : Nat) :
    h.following n = (List.range n).map fun i => h.incrementBy (UInt64.ofNat (i + 1)) := by
  induction n with
  | zero => rfl
  | succ n ih =>
    rw [following_add, ih, List.range_succ, List.map_append]
    simp only [following, List.map_cons, List.map_nil, iterate_increment]
    simp [increment, incrementBy, UInt64.ofNat_add, UInt64.add_assoc]

theorem following_nodup (h : Height) {n : Nat} (hn : n < 2 ^ 64) : (h.following n).Nodup := by
  rw [following_eq_map]
  refine (List.nodup_range).map_on fun i hi j hj heq => ?_
  have hnum := congrArg Height.blockNumber heq
  simp only [incrementBy, UInt64.add_right_inj] at hnum
  have hnat := congrArg UInt64.toNat hnum
  rw [List.mem_range] at hi hj
  rw [UInt64.toNat_ofNat', UInt64.toNat_ofNat', Nat.mod_eq_of_lt (by omega), Nat.mod_eq_of_lt (by omega)]
    at hnat
  omega

end Height

namespace ReadValidator

variable {S B : Type} [CommitEngine S B]

/-! ## What a call does -/

/-- The node has committed `vs`, one height after the other. -/
structure Applied (v : ReadValidator S B) (vs : List DecidedValue) (v' : ReadValidator S B) : Prop where
  engine : v.engine.commitAll vs = some v'.engine
  heights : vs.map DecidedValue.height = (v.lastHeight.following vs.length).map some
  last : v'.lastHeight = Height.increment^[vs.length] v.lastHeight
  validatorSets : v'.validatorSets = v.validatorSets
  limit : v'.maxNumBufferedBlocks = v.maxNumBufferedBlocks

/-- The signatures that came with the value are those of a quorum. -/
def Checked [VoteLibs] [ProstEncode] (sets : StoredValidatorSets) (x : DecidedValue) : Prop :=
  ∃ commits, x.commits = some commits ∧ verifySignatures commits sets = some true

/-- The entries of the buffer are under their own heights, and `P` holds of them. -/
def Parked (P : DecidedValue → Prop) (buffer : Std.TreeMap Height DecidedValue) : Prop :=
  ∀ h x, buffer[h]? = some x → x.height = some h ∧ P x

/-- **The buffer between calls**: only values beyond the next height, and no more than fit. -/
structure Buffered (P : DecidedValue → Prop) (v : ReadValidator S B) : Prop where
  later : ∀ h ∈ v.bufferedBlocks, compare h v.lastHeight.increment = .gt
  size_le : v.bufferedBlocks.size ≤ v.maxNumBufferedBlocks.toNat
  parked : Parked P v.bufferedBlocks

variable {v v' v'' : ReadValidator S B} {P : DecidedValue → Prop} {value : DecidedValue} {n : UInt64}
  {height : Height}

namespace Applied

theorem nil (v : ReadValidator S B) : Applied v [] v := ⟨rfl, rfl, rfl, rfl, rfl⟩

theorem trans {vs ws : List DecidedValue} (h : Applied v vs v') (h' : Applied v' ws v'') :
    Applied v (vs ++ ws) v'' where
  engine := by rw [Engine.commitAll_append, h.engine, Option.bind_some, h'.engine]
  heights := by
    rw [List.map_append, h.heights, h'.heights, h.last, List.length_append, Height.following_add,
      List.map_append]
  last := by rw [h'.last, h.last, List.length_append, Nat.add_comm, Function.iterate_add_apply]
  validatorSets := h'.validatorSets.trans h.validatorSets
  limit := h'.limit.trans h.limit

theorem of_buffer {buffer : Std.TreeMap Height DecidedValue} {vs : List DecidedValue}
    (h : Applied { v with bufferedBlocks := buffer } vs v') : Applied v vs v' :=
  ⟨h.engine, h.heights, h.last, h.validatorSets, h.limit⟩

theorem single (hnext : height = v.lastHeight.increment) (hheight : value.height = some height)
    (hc : v.commitDecidedValue value height = some v') : Applied v [value] v' := by
  unfold commitDecidedValue at hc
  obtain ⟨engine, hengine, hc⟩ := Option.bind_eq_some_iff.1 hc
  cases hc
  exact ⟨by simp [Engine.commitAll, hengine], by simp [Height.following, hheight, hnext], hnext, rfl, rfl⟩

end Applied

/-! ## The buffer -/

section buffer
omit [CommitEngine S B]
variable {buffer rest : Std.TreeMap Height DecidedValue} {height : Height}

theorem popFirst_eq_none (h : popFirst buffer = none) : ∀ k, k ∉ buffer := by
  intro k hk
  unfold popFirst at h
  split at h
  next hnil =>
    have hmem := Std.TreeMap.mem_toList_iff_getElem?_eq_some.2 (Std.TreeMap.getElem?_eq_some_getElem hk)
    rw [hnil] at hmem
    exact List.not_mem_nil hmem
  next => cases h

theorem popFirst_eq_some (h : popFirst buffer = some ((height, value), rest)) :
    buffer[height]? = some value ∧ rest = buffer.erase height ∧ ∀ k ∈ buffer, compare height k ≠ .gt := by
  unfold popFirst at h
  split at h
  next => cases h
  next hcons =>
    cases h
    refine ⟨Std.TreeMap.mem_toList_iff_getElem?_eq_some.1 (by rw [hcons]; simp), rfl, fun k hk => ?_⟩
    have hmin : buffer.minKey? = some height := by
      rw [Std.TreeMap.minKey?_eq_head?_keys, ← Std.TreeMap.map_fst_toList_eq_keys, hcons]
      rfl
    exact Ordering.isLE_iff_ne_gt.1 ((Std.TreeMap.minKey?_eq_some_iff_mem_and_forall.1 hmin).2 k hk)

theorem size_erase_of_getElem? (h : buffer[height]? = some value) :
    (buffer.erase height).size + 1 = buffer.size := by
  have hmem : height ∈ buffer := Std.TreeMap.mem_iff_isSome_getElem?.2 (by simp [h])
  have hpos : 0 < buffer.size := by
    rw [Nat.pos_iff_ne_zero]
    intro hzero
    exact Std.TreeMap.not_mem_of_isEmpty (by simp [Std.TreeMap.isEmpty_eq_size_eq_zero, hzero]) hmem
  rw [Std.TreeMap.size_erase, if_pos (Std.TreeMap.contains_iff_mem.2 hmem)]
  omega

theorem Parked.erase (h : Parked P buffer) (k : Height) : Parked P (buffer.erase k) := by
  intro h' x hx
  rw [Std.TreeMap.getElem?_erase] at hx
  split at hx
  · cases hx
  · exact h h' x hx

theorem Parked.insert (h : Parked P buffer) (hheight : value.height = some height) (hP : P value) :
    Parked P (buffer.insert height value) := by
  intro h' x hx
  rw [Std.TreeMap.getElem?_insert] at hx
  split at hx
  next heq =>
    cases hx
    rw [← Std.LawfulEqOrd.eq_of_compare heq]
    exact ⟨hheight, hP⟩
  next => exact h h' x hx

theorem mem_insert_erase {k : Height} (h : buffer[height]? = some value) :
    k ∈ (buffer.erase height).insert height value ↔ k ∈ buffer := by
  have hmem : height ∈ buffer := Std.TreeMap.mem_iff_isSome_getElem?.2 (by simp [h])
  rw [Std.TreeMap.mem_insert, Std.TreeMap.mem_erase]
  by_cases heq : compare height k = .eq
  · have := Std.LawfulEqOrd.eq_of_compare heq
    subst this
    simp [hmem]
  · simp [heq]

end buffer

theorem bufferedBlocks_of_commit (h : v.commitDecidedValue value height = some v') :
    v'.bufferedBlocks = v.bufferedBlocks := by
  obtain ⟨engine, -, hv'⟩ := Option.bind_eq_some_iff.1 h
  cases hv'
  rfl

omit [CommitEngine S B] in
theorem count_cons (v : ReadValidator S B) {vs : List DecidedValue} {x : DecidedValue}
    (hn : n.toNat = vs.length) (hle : vs.length ≤ v.maxNumBufferedBlocks.toNat) :
    (n + 1).toNat = (x :: vs).length := by
  have hmax : v.maxNumBufferedBlocks.toNat < 2 ^ 32 := v.maxNumBufferedBlocks.toNat_lt
  rw [UInt64.toNat_add, hn, List.length_cons]
  exact Nat.mod_eq_of_lt (by simp only [UInt64.reduceToNat]; omega)

/-! ## Draining the buffer -/

/-- Every turn commits the next value, drops an outdated one, or leaves only later ones. -/
theorem processBuffered_applied {turns : Nat} (h : v.processBuffered turns = some (n, v'))
    (hturns : v.bufferedBlocks.size ≤ turns) (hsize : v.bufferedBlocks.size ≤ v.maxNumBufferedBlocks.toNat)
    (hparked : Parked P v.bufferedBlocks) :
    ∃ vs, Applied v vs v' ∧ n.toNat = vs.length ∧ vs.length ≤ v.bufferedBlocks.size ∧ (∀ x ∈ vs, P x) ∧
      Buffered P v' := by
  -- induction on the turns; the buffer loses one entry in each
  induction turns generalizing v v' n with
  | zero =>
    cases h
    have hnone : ∀ k, k ∉ v.bufferedBlocks := fun k => Std.TreeMap.not_mem_of_isEmpty
      (by rw [Std.TreeMap.isEmpty_eq_size_eq_zero]; simpa using hturns)
    exact ⟨[], .nil v, rfl, Nat.zero_le _, by simp, fun k hk => absurd hk (hnone k), hsize, hparked⟩
  | succ turns ih =>
    rw [processBuffered] at h
    cases hpop : popFirst v.bufferedBlocks with
    | none =>
      simp only [hpop] at h
      cases h
      exact ⟨[], .nil v, rfl, Nat.zero_le _, by simp, fun k hk =>
        absurd hk (popFirst_eq_none hpop k), hsize, hparked⟩
    | some e =>
      obtain ⟨⟨height, x⟩, rest⟩ := e
      obtain ⟨hget, rfl, hmin⟩ := popFirst_eq_some hpop
      have hlt := size_erase_of_getElem? hget
      obtain ⟨hheight, hP⟩ := hparked _ _ hget
      simp only [hpop] at h
      cases hcmp : compare height v.lastHeight.increment with
      | lt =>
        simp only [hcmp] at h
        obtain ⟨vs, happ, hn, hlen, hvs, hbuf⟩ :=
          ih h (by simp only; omega) (by simp only; omega) (hparked.erase _)
        exact ⟨vs, happ.of_buffer, hn, by simp only at hlen; omega, hvs, hbuf⟩
      | gt =>
        simp only [hcmp] at h
        cases h
        refine ⟨[], ⟨rfl, rfl, rfl, rfl, rfl⟩, rfl, Nat.zero_le _, by simp, fun k hk => ?_, ?_,
          (hparked.erase _).insert hheight hP⟩
        · -- nothing in the buffer is before its first entry
          exact Std.TransCmp.gt_of_isGE_of_gt (Ordering.isGE_iff_ne_lt.2 fun hlt =>
            hmin k ((mem_insert_erase hget).1 hk) (Std.OrientedCmp.gt_iff_lt.2 hlt)) hcmp
        · exact (Std.TreeMap.size_insert_le).trans (by simp only; omega)
      | eq =>
        simp only [hcmp] at h
        obtain ⟨v₁, hcommit, h⟩ := Option.bind_eq_some_iff.1 h
        obtain ⟨⟨m, v₂⟩, hrest, h⟩ := Option.bind_eq_some_iff.1 h
        cases h
        have hnext := Std.LawfulEqOrd.eq_of_compare hcmp
        have hone := (Applied.single (by exact hnext) hheight hcommit).of_buffer
        have hbuf₁ : v₁.bufferedBlocks = v.bufferedBlocks.erase height := bufferedBlocks_of_commit hcommit
        obtain ⟨vs, happ, hn, hlen, hvs, hbuf⟩ := ih hrest (by rw [hbuf₁]; omega)
          (by rw [hbuf₁, hone.limit]; omega) (by rw [hbuf₁]; exact hparked.erase _)
        rw [hbuf₁] at hlen
        refine ⟨x :: vs, hone.trans happ, v.count_cons hn (by omega), ?_,
          List.forall_mem_cons.2 ⟨hP, hvs⟩, hbuf⟩
        rw [List.length_cons]
        omega

/-- The engine takes the values after the height of the node, as far as `P` holds of them. -/
def Takes (P : DecidedValue → Prop) (v : ReadValidator S B) : Prop :=
  ∀ vs, vs.map DecidedValue.height = (v.lastHeight.following vs.length).map some → (∀ x ∈ vs, P x) →
    (v.engine.commitAll vs).isSome = true

theorem Takes.commit (h : Takes P v) (hnext : height = v.lastHeight.increment)
    (hheight : value.height = some height) (hP : P value) :
    ∃ v', v.commitDecidedValue value height = some v' ∧ Takes P v' := by
  have hone := h [value] (by simp [Height.following, hheight, hnext]) (by simpa using hP)
  obtain ⟨engine, hengine⟩ := Option.isSome_iff_exists.1 hone
  simp only [Engine.commitAll, bind, Option.bind_eq_some_iff, Option.some.injEq, exists_eq_right] at hengine
  refine ⟨{ v with engine := engine, lastHeight := height }, by simp [commitDecidedValue, hengine],
    fun vs hvs hall => ?_⟩
  have := h (value :: vs) (by simp [Height.following, hheight, ← hnext, hvs]) (by simpa using ⟨hP, hall⟩)
  simpa [Engine.commitAll, hengine] using this

theorem processBuffered_isSome (turns : Nat) (hparked : Parked P v.bufferedBlocks) (htakes : Takes P v) :
    (v.processBuffered turns).isSome = true := by
  induction turns generalizing v with
  | zero => rfl
  | succ turns ih =>
    rw [processBuffered]
    cases hpop : popFirst v.bufferedBlocks with
    | none => rfl
    | some e =>
      obtain ⟨⟨height, x⟩, rest⟩ := e
      obtain ⟨hget, rfl, -⟩ := popFirst_eq_some hpop
      obtain ⟨hheight, hP⟩ := hparked _ _ hget
      simp only
      cases hcmp : compare height v.lastHeight.increment with
      | lt => exact ih (hparked.erase _) htakes
      | gt => rfl
      | eq =>
        obtain ⟨v₁, hcommit, htakes₁⟩ :=
          Takes.commit (v := { v with bufferedBlocks := v.bufferedBlocks.erase height })
          htakes (Std.LawfulEqOrd.eq_of_compare hcmp) hheight hP
        obtain ⟨r, hr⟩ := Option.isSome_iff_exists.1
          (ih (bufferedBlocks_of_commit hcommit ▸ hparked.erase height) htakes₁)
        simp [hcommit, hr]

omit [CommitEngine S B] in
theorem Buffered.of_empty (hempty : v.bufferedBlocks = ∅) : Buffered P v := by
  refine ⟨fun h hh => ?_, ?_, fun h x hx => ?_⟩
  · rw [hempty] at hh
    exact absurd hh Std.TreeMap.not_mem_emptyc
  · rw [hempty]
    exact Nat.zero_le _
  · rw [hempty] at hx
    simp at hx

/-! ## One call -/

variable [VoteLibs] [ProstEncode]

/-- **One call**: it commits a list of values, as many as it says, and leaves the buffer in order. -/
theorem processDecidedValue_applied (h : v.processDecidedValue value = some (n, v')) (hbuf : Buffered P v)
    (hP : Checked v.validatorSets value → P value) :
    ∃ vs, Applied v vs v' ∧ n.toNat = vs.length ∧ (∀ x ∈ vs, P x) ∧ Buffered P v' := by
  have hskip : (∃ vs, Applied v vs v ∧ (0 : UInt64).toNat = vs.length ∧ (∀ x ∈ vs, P x) ∧ Buffered P v) :=
    ⟨[], .nil v, rfl, by simp, hbuf⟩
  unfold processDecidedValue at h
  obtain ⟨height, hheight, h⟩ := Option.bind_eq_some_iff.1 h
  obtain ⟨commits, hcommits, h⟩ := Option.bind_eq_some_iff.1 h
  obtain ⟨verified, hver, h⟩ := Option.bind_eq_some_iff.1 h
  cases verified with
  | false => cases h; exact hskip
  | true =>
    have hP := hP ⟨commits, hcommits, hver⟩
    simp only [Bool.not_true, Bool.false_eq_true, if_false] at h
    obtain ⟨versionOk, -, h⟩ := Option.bind_eq_some_iff.1 h
    cases versionOk with
    | false => cases h; exact hskip
    | true =>
      simp only [Bool.not_true, Bool.false_eq_true, if_false] at h
      cases hcmp : compare height v.lastHeight.increment with
      | lt => simp only [hcmp] at h; cases h; exact hskip
      | gt =>
        simp only [hcmp] at h
        split at h
        next hroom =>
          cases h
          refine ⟨[], ⟨rfl, rfl, rfl, rfl, rfl⟩, rfl, by simp, fun k hk => ?_, ?_,
            hbuf.parked.insert hheight hP⟩
          · rcases Std.TreeMap.mem_insert.1 hk with heq | hk
            · rw [← Std.LawfulEqOrd.eq_of_compare heq]
              exact hcmp
            · exact hbuf.later k hk
          · -- there was room: the length, as 32 bits, is the length
            have hmax : v.maxNumBufferedBlocks.toNat < 2 ^ 32 := v.maxNumBufferedBlocks.toNat_lt
            have hle := hbuf.size_le
            have hlt : v.bufferedBlocks.size < v.maxNumBufferedBlocks.toNat := by
              have hroom := UInt32.lt_iff_toNat_lt.1 hroom
              rwa [UInt32.toNat_ofNat', Nat.mod_eq_of_lt (by omega)] at hroom
            exact (Std.TreeMap.size_insert_le).trans hlt
        next => cases h; exact hskip
      | eq =>
        simp only [hcmp] at h
        obtain ⟨v₁, hcommit, h⟩ := Option.bind_eq_some_iff.1 h
        obtain ⟨⟨m, v₂⟩, hrest, h⟩ := Option.bind_eq_some_iff.1 h
        cases h
        have hone := Applied.single (Std.LawfulEqOrd.eq_of_compare hcmp) hheight hcommit
        have hbuf₁ := bufferedBlocks_of_commit hcommit
        have hle := hbuf.size_le
        obtain ⟨vs, happ, hn, hlen, hvs, hbuf'⟩ := processBuffered_applied hrest le_rfl
          (by rw [hbuf₁, hone.limit]; exact hle) (by rw [hbuf₁]; exact hbuf.parked)
        rw [hbuf₁] at hlen
        exact ⟨value :: vs, hone.trans happ, v.count_cons hn (by omega),
          List.forall_mem_cons.2 ⟨hP, hvs⟩, hbuf'⟩

/-- A value that does not make the checks panic. -/
structure Deliverable (v : ReadValidator S B) (value : DecidedValue) : Prop where
  height : value.height.isSome = true
  commits : ∃ commits, value.commits = some commits ∧ (verifySignatures commits v.validatorSets).isSome = true
  version : (validateProtocolVersion value).isSome = true

/-- **A call returns** on a value that can be checked, if the engine takes what is committed. -/
theorem processDecidedValue_isSome (hvalue : Deliverable v value) (hparked : Parked P v.bufferedBlocks)
    (hP : P value) (htakes : Takes P v) : (v.processDecidedValue value).isSome = true := by
  obtain ⟨height, hheight⟩ := Option.isSome_iff_exists.1 hvalue.height
  obtain ⟨commits, hcommits, hver⟩ := hvalue.commits
  obtain ⟨verified, hver⟩ := Option.isSome_iff_exists.1 hver
  obtain ⟨versionOk, hversion⟩ := Option.isSome_iff_exists.1 hvalue.version
  simp only [processDecidedValue, hheight, hcommits, hver, hversion, Option.bind_eq_bind, Option.bind_some]
  cases verified with
  | false => rfl
  | true =>
    cases versionOk with
    | false => rfl
    | true =>
      simp only [Bool.not_true, Bool.false_eq_true, if_false]
      cases hcmp : compare height v.lastHeight.increment with
      | lt => rfl
      | gt => simp only; split <;> rfl
      | eq =>
        obtain ⟨v₁, hcommit, htakes₁⟩ := htakes.commit (Std.LawfulEqOrd.eq_of_compare hcmp) hheight hP
        obtain ⟨r, hr⟩ := Option.isSome_iff_exists.1 (processBuffered_isSome v₁.bufferedBlocks.size
          (bufferedBlocks_of_commit hcommit ▸ hparked) htakes₁)
        simp [hcommit, processBufferedBlocks, hr]

/-! ## Runs -/

/-- **A run of calls**: all it commits follows the height it started from. -/
theorem processAll_applied {values : List DecidedValue} {ns : List UInt64}
    (h : v.processAll values = some (ns, v')) (hbuf : Buffered P v)
    (hP : ∀ x ∈ values, Checked v.validatorSets x → P x) :
    ∃ vs, Applied v vs v' ∧ (ns.map UInt64.toNat).sum = vs.length ∧ (∀ x ∈ vs, P x) ∧ Buffered P v' := by
  induction values generalizing v ns with
  | nil =>
    cases h
    exact ⟨[], .nil _, rfl, by simp, hbuf⟩
  | cons value values ih =>
    rw [processAll] at h
    obtain ⟨⟨n, v₁⟩, hcall, h⟩ := Option.bind_eq_some_iff.1 h
    obtain ⟨⟨ns', v₂⟩, hrest, h⟩ := Option.bind_eq_some_iff.1 h
    cases h
    obtain ⟨vs, happ, hn, hvs, hbuf₁⟩ := processDecidedValue_applied hcall hbuf (hP value (by simp))
    obtain ⟨ws, happ', hns, hws, hbuf'⟩ := ih hrest hbuf₁ fun x hx hc =>
      hP x (List.mem_cons_of_mem _ hx) (happ.validatorSets ▸ hc)
    refine ⟨vs ++ ws, happ.trans happ', ?_, ?_, hbuf'⟩
    · rw [List.map_cons, List.sum_cons, hn, hns, List.length_append]
    · rintro x hx
      rcases List.mem_append.1 hx with hx | hx
      · exact hvs x hx
      · exact hws x hx

/-- **The commit order of a read node.** After any sequence of calls on a freshly started node, and after one
    more: what was committed are delivered values, at the heights `last + 1, last + 2, …`, none twice; the
    buffer holds only values beyond the next height, and no more than its limit; the last call returned how
    many values it committed; and it returned, if its value could be checked and the engine took what was
    committed. -/
theorem read_commits_in_order (start : ReadValidator S B) (hempty : start.bufferedBlocks = ∅)
    (values : List DecidedValue) (ns : List UInt64) (v : ReadValidator S B)
    (hrun : start.processAll values = some (ns, v)) (value : DecidedValue) :
    (∃ vs, Applied start vs v ∧ vs ⊆ values ∧ (ns.map UInt64.toNat).sum = vs.length ∧
      (vs.length < 2 ^ 64 → (vs.map DecidedValue.height).Nodup)) ∧
    v.lastHeight.increment ∉ v.bufferedBlocks ∧
    (∀ h ∈ v.bufferedBlocks, compare h v.lastHeight.increment = .gt) ∧
    v.bufferedBlocks.size ≤ v.maxNumBufferedBlocks.toNat ∧
    (∀ n v', v.processDecidedValue value = some (n, v') → ∃ vs, Applied v vs v' ∧ n.toNat = vs.length) ∧
    (Deliverable v value → (∀ vs ⊆ value :: values, vs.map DecidedValue.height =
        (v.lastHeight.following vs.length).map some → (v.engine.commitAll vs).isSome = true) →
      (v.processDecidedValue value).isSome = true) := by
  have hstart : Buffered (· ∈ values) start := .of_empty hempty
  obtain ⟨vs, happ, hsum, hmem, hbuf⟩ := processAll_applied hrun hstart fun x hx _ => hx
  refine ⟨⟨vs, happ, hmem, hsum, fun hlen => ?_⟩, fun hnext => ?_, hbuf.later, hbuf.size_le,
    fun n v' hcall => ?_, fun hvalue hcommit => ?_⟩
  · rw [happ.heights]
    exact (Height.following_nodup _ hlen).map (Option.some_injective _)
  · have hgt := hbuf.later _ hnext
    have heq : compare v.lastHeight.increment v.lastHeight.increment = .eq := Std.ReflCmp.compare_self
    exact absurd (heq.symm.trans hgt) (by decide)
  · obtain ⟨vs, happ, hn, -, -⟩ := processDecidedValue_applied (P := fun _ => True) hcall
      ⟨hbuf.later, hbuf.size_le, fun h x hx => ⟨(hbuf.parked h x hx).1, trivial⟩⟩ fun _ => trivial
    exact ⟨vs, happ, hn⟩
  · exact processDecidedValue_isSome (P := (· ∈ value :: values)) hvalue
      (fun h x hx => ⟨(hbuf.parked h x hx).1, List.mem_cons_of_mem _ (hbuf.parked h x hx).2⟩) (by simp)
      fun vs hvs hall => hcommit vs hall hvs

/-! ## What a committed value was checked for -/

section certified
variable [Blake3]

def headerHash (x : DecidedValue) : Option Bytes := do
  match ← x.value with
  | .shard chunk => some (Blake3.hash (ProstEncode.encodeShardHeader (← chunk.header))).toList
  | .block block => some (Blake3.hash (ProstEncode.encodeBlockHeader (← block.header))).toList

/-- The certificate that came with the value is for the height and the hash of its own header. -/
def Tied (x : DecidedValue) : Prop :=
  ∀ commits, x.commits = some commits → commits.height = x.height ∧ commits.value.map (·.hash) = headerHash x

omit [CommitEngine S B] in
theorem certified_of_checked {signed : Bytes → Bytes → Prop}
    (hsigned : ∀ key msg sig, Ed25519.verify key msg sig = true → signed key msg) {sets : StoredValidatorSets}
    {x : DecidedValue} (hchecked : Checked sets x) (htied : Tied x) :
    ∃ height hash, x.height = some height ∧ headerHash x = some hash ∧ Certified signed sets height hash := by
  obtain ⟨commits, hcommits, hver⟩ := hchecked
  obtain ⟨height, value, hheight, hvalue, hcert⟩ := certified_of_verifySignatures hsigned hver
  obtain ⟨htied, hhash⟩ := htied commits hcommits
  exact ⟨height, value.hash, htied.symm.trans hheight, hhash.symm.trans (by rw [hvalue]; rfl), hcert⟩

/-- **What a read node commits is certified**, if every value that is delivered carries a certificate for its
    own header: a quorum of the validators in force at its height signed a precommit for its height and the
    hash of its header. -/
theorem read_commits_certified (signed : Bytes → Bytes → Prop)
    (hsigned : ∀ key msg sig, Ed25519.verify key msg sig = true → signed key msg) (start : ReadValidator S B)
    (hempty : start.bufferedBlocks = ∅) (values : List DecidedValue) (htied : ∀ x ∈ values, Tied x)
    (ns : List UInt64) (v : ReadValidator S B) (hrun : start.processAll values = some (ns, v)) :
    ∃ vs, Applied start vs v ∧ ∀ x ∈ vs, ∃ height hash, x.height = some height ∧ headerHash x = some hash ∧
      Certified signed start.validatorSets height hash := by
  have hstart : Buffered (fun x => Checked start.validatorSets x ∧ Tied x) start := .of_empty hempty
  obtain ⟨vs, happ, -, hvs, -⟩ := processAll_applied hrun hstart fun x hx hc => ⟨hc, htied x hx⟩
  exact ⟨vs, happ, fun x hx => certified_of_checked hsigned (hvs x hx).1 (hvs x hx).2⟩

end certified

end ReadValidator

/-! ### A node that receives two chunks in the wrong order -/

namespace ReadValidator

/-- An engine that only remembers what it was given. -/
instance logEngine : CommitEngine (List ShardChunk) Unit :=
  ⟨fun log chunk => some (log ++ [chunk]), fun _ _ => some ()⟩

def sampleKey : Bytes := List.replicate 32 7

def sampleSets : StoredValidatorSets := ⟨1, [⟨0, ⟨[⟨1, sampleKey⟩], List.nodup_singleton _⟩, [1]⟩]⟩

/-- The chunk of a height with some root, and a certificate for the height and the hash `1 1 … 1`. -/
def sampleChunk (height : UInt64) (root : UInt8) : DecidedValue where
  value := some (.shard
    { header := some ⟨some ⟨1, height⟩, 0, [], [root]⟩
      hash := []
      transactions := []
      commits := some ⟨some ⟨1, height⟩, 0, some ⟨1, List.replicate 32 1⟩, [⟨sampleKey, [1]⟩]⟩ })

def sampleNode : ReadValidator (List ShardChunk) Unit := ⟨.shardEngine [], ⟨1, 0⟩, 10, ∅, sampleSets⟩

/-- Height 2 waits for height 1; then both are committed. -/
theorem read_commits_in_order_sample :
    ∃ v, @processAll _ _ _ sampleLibs sampleEncode sampleNode [sampleChunk 2 1, sampleChunk 1 1] =
      some ([0, 2], v) ∧
      ∃ vs, Applied sampleNode vs v ∧ vs.length = 2 := by
  let _ := sampleLibs
  let _ := sampleEncode
  have hrun : ∃ v, sampleNode.processAll [sampleChunk 2 1, sampleChunk 1 1] = some ([0, 2], v) := ⟨_, rfl⟩
  obtain ⟨v, hrun⟩ := hrun
  obtain ⟨⟨vs, happ, -, hsum, -⟩, -⟩ := read_commits_in_order sampleNode rfl _ _ v hrun (sampleChunk 3 1)
  exact ⟨v, hrun, vs, happ, hsum.symm⟩

/-! ### A certificate for another chunk -/

/-- A hash that repeats the first byte. -/
@[reducible] def sampleBlake3 : Blake3 := ⟨fun b => Vector.replicate 32 (b.headD 0)⟩

/-- One precommit was ever signed: that of `sampleKey` for the hash `1 1 … 1`. -/
def signedOnce (key msg : Bytes) : Prop := key = sampleKey ∧ msg = List.replicate 32 1

@[reducible] def onceLibs : VoteLibs :=
  .ofEd25519 ⟨fun key msg sig => key == sampleKey && msg == List.replicate 32 1 && sig == [1]⟩

theorem signedOnce_of_verify (key msg sig : Bytes) (h : onceLibs.verify key msg sig = true) :
    signedOnce key msg := by
  have h : (key == sampleKey && msg == List.replicate 32 1 && sig == [1]) = true := h
  rw [Bool.and_eq_true, Bool.and_eq_true, beq_iff_eq, beq_iff_eq] at h
  exact h.1

/-- The chunk that was voted for is committed, with its certificate. -/
theorem read_commits_certified_sample :
    ∃ v, @processAll _ _ _ onceLibs sampleEncode sampleNode [sampleChunk 1 1] = some ([1], v) ∧
      ∃ vs, Applied sampleNode vs v ∧ ∀ x ∈ vs, ∃ height hash, x.height = some height ∧
        @headerHash sampleEncode sampleBlake3 x = some hash ∧
        @Certified sampleEncode signedOnce sampleSets height hash := by
  let _ := onceLibs
  let _ := sampleEncode
  let _ := sampleBlake3
  have htied : ∀ x ∈ [sampleChunk 1 1], Tied x := by
    intro x hx commits hcommits
    cases List.mem_singleton.1 hx
    cases hcommits
    exact ⟨rfl, rfl⟩
  have hrun : ∃ v, sampleNode.processAll [sampleChunk 1 1] = some ([1], v) := ⟨_, rfl⟩
  obtain ⟨v, hrun⟩ := hrun
  exact ⟨v, hrun, read_commits_certified signedOnce signedOnce_of_verify sampleNode rfl _ htied _ v hrun⟩

/-- A chunk with another root is committed under the same certificate, although nobody signed a precommit for
    it. -/
theorem read_commits_uncertified :
    (∃ v, @processAll _ _ _ onceLibs sampleEncode sampleNode [sampleChunk 1 2] = some ([1], v) ∧
      sampleNode.engine.commitAll [sampleChunk 1 2] = some v.engine) ∧
    (∀ key msg sig, onceLibs.verify key msg sig = true → signedOnce key msg) ∧
    @headerHash sampleEncode sampleBlake3 (sampleChunk 1 2) = some (List.replicate 32 2) ∧
    ¬ @Certified sampleEncode signedOnce sampleSets ⟨1, 1⟩ (List.replicate 32 2) := by
  refine ⟨⟨_, rfl, rfl⟩, signedOnce_of_verify, rfl, ?_⟩
  rintro ⟨set, signers, round, shardIndex, hset, -, -, hquorum, hall⟩
  cases signers with
  | nil => simp at hquorum
  | cons a rest =>
    have hmsg : List.replicate 32 (2 : UInt8) = List.replicate 32 1 := (hall a (by simp)).2
    exact absurd hmsg (by decide)

end ReadValidator

end Hypersnap
