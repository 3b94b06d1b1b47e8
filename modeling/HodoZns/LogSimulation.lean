import HodoZns.BlockLog

/-!
# Zone files that answer alike

Two kinds of zone files that give the same answers to the same requests, and stay related
by them, carry the same log: what the functions of `trans.c` give back, whether their loops
end, and what is left behind agree.
-/

namespace LogSimulation

open ByteBlock Layout FuelLoop BlockLog

/-- The lengths that reach a zone file are those of a block or of a part of one. -/
structure Simulates {σ τ : Type} (F : ZoneFiles σ) (F' : ZoneFiles τ) (R : σ → τ → Prop) :
    Prop where
  info : ∀ {s t}, R s t → F.info s = F'.info t
  setInfo : ∀ {s t}, R s t → ∀ m, R (F.setInfo s m) (F'.setInfo t m)
  write : ∀ {s t}, R s t → ∀ zone offset {len} n b, 0 < len → len ≤ hodoDatablockSize →
    (F.write zone offset len n b s).1 = (F'.write zone offset len n b t).1 ∧
      R (F.write zone offset len n b s).2 (F'.write zone offset len n b t).2
  read : ∀ {s t}, R s t → ∀ zone offset {len} buf, 0 < len → len ≤ hodoDatablockSize →
    (F.read zone offset len buf s).1 = (F'.read zone offset len buf t).1 ∧
      R (F.read zone offset len buf s).2 (F'.read zone offset len buf t).2
  truncate : ∀ {s t}, R s t → ∀ zone, R (F.truncate zone s) (F'.truncate zone t)

/-- The same answer, and related states. -/
structure Alike {σ τ α : Type} (R : σ → τ → Prop) (x : α × σ) (y : α × τ) : Prop where
  answer : x.1 = y.1
  state : R x.2 y.2

structure WriteAlike {σ τ : Type} (R : σ → τ → Prop) (r : WriteResult σ) (r' : WriteResult τ) :
    Prop where
  ret : r.ret = r'.ret
  number : r.number = r'.number
  buf : r.buf = r'.buf
  volume : R r.volume r'.volume

section

variable {σ τ : Type} {F : ZoneFiles σ} {F' : ZoneFiles τ} {R : σ → τ → Prop} {s : σ} {t : τ}
  {G : Geometry}

theorem Simulates.setWp (h : Simulates F F' R) (hR : R s t) (pos : BlockPos) :
    R (F.setWp s pos) (F'.setWp t pos) := by
  rw [ZoneFiles.setWp, ZoneFiles.setWp, h.info hR]
  exact h.setInfo hR _

theorem Simulates.setSwapWp (h : Simulates F F' R) (hR : R s t) (pos : BlockPos) :
    R (F.setSwapWp s pos) (F'.setSwapWp t pos) := by
  rw [ZoneFiles.setSwapWp, ZoneFiles.setSwapWp, h.info hR]
  exact h.setInfo hR _

theorem Simulates.readAt (h : Simulates F F' R) (hR : R s t) (pos : BlockPos)
    (outBuf : Option Block) (len : Nat) :
    Alike R (F.readAt s pos outBuf len) (F'.readAt t pos outBuf len) := by
  cases outBuf with
  | none => exact ⟨rfl, hR⟩
  | some buf =>
    simp only [ZoneFiles.readAt]
    by_cases hlen : len = 0 ∨ hodoDatablockSize < len
    · simp only [if_pos hlen]
      exact ⟨rfl, hR⟩
    · simp only [if_neg hlen]
      obtain ⟨same, related⟩ := h.read hR pos.zoneId (pos.blockIndex * hodoDatablockSize) buf
        (Nat.pos_of_ne_zero fun hzero => hlen (.inl hzero)) (not_lt.mp fun hlt => hlen (.inr hlt))
      exact ⟨congrArg (fun r : Int × Block => (r.1, some r.2)) same, related⟩

theorem Simulates.hodoReadStruct (h : Simulates F F' R) (hR : R s t) (n : Nat)
    (outBuf : Option Block) (len : Nat) :
    Option.Rel (Alike R) (F.hodoReadStruct s n outBuf len) (F'.hodoReadStruct t n outBuf len) := by
  rw [ZoneFiles.hodoReadStruct, ZoneFiles.hodoReadStruct, h.info hR]
  split
  · exact .some (h.readAt hR _ outBuf len)
  · exact .none

theorem Simulates.hodoWriteStruct (h : Simulates F F' R) (hR : R s t) (buf : Option Block)
    (len n : Nat) :
    WriteAlike R (F.hodoWriteStruct G s buf len n) (F'.hodoWriteStruct G t buf len n) := by
  cases buf with
  | none => exact ⟨rfl, rfl, rfl, hR⟩
  | some b =>
    rw [ZoneFiles.hodoWriteStruct, ZoneFiles.hodoWriteStruct, h.info hR]
    by_cases hlen : len = 0 ∨ hodoDatablockSize < len
    · simp only [if_pos hlen]
      exact ⟨rfl, rfl, rfl, hR⟩
    · simp only [if_neg hlen]
      set wp := (F'.info t).wp
      set r := recordWrite (F'.info t) n
      obtain ⟨same, related⟩ := h.write (h.setInfo hR r.2) wp.zoneId
        (wp.blockIndex * hodoDatablockSize) r.1 (stamp b r.1)
        (Nat.pos_of_ne_zero fun hzero => hlen (.inl hzero)) (not_lt.mp fun hlt => hlen (.inr hlt))
      generalize F.write _ _ _ _ _ _ = x at same related ⊢
      generalize F'.write _ _ _ _ _ _ = y at same related ⊢
      obtain ⟨answer, s'⟩ := x
      obtain ⟨_, t'⟩ := y
      obtain rfl := same
      cases answer with
      | error e => exact ⟨rfl, rfl, rfl, related⟩
      | ok ret => exact ⟨rfl, rfl, rfl, h.setWp related _⟩

theorem Simulates.hodoGCWriteStruct (h : Simulates F F' R) (hR : R s t) (buf : Option Block)
    (len n : Nat) :
    WriteAlike R (F.hodoGCWriteStruct G s buf len n) (F'.hodoGCWriteStruct G t buf len n) := by
  cases buf with
  | none => exact ⟨rfl, rfl, rfl, hR⟩
  | some b =>
    rw [ZoneFiles.hodoGCWriteStruct, ZoneFiles.hodoGCWriteStruct, h.info hR]
    by_cases hlen : len = 0 ∨ hodoDatablockSize < len
    · simp only [if_pos hlen]
      exact ⟨rfl, rfl, rfl, hR⟩
    · simp only [if_neg hlen]
      set swapWp := (F'.info t).swapWp
      obtain ⟨same, related⟩ := h.write (h.setInfo hR (recordMove (F'.info t) n)) swapWp.zoneId
        (swapWp.blockIndex * hodoDatablockSize) n b
        (Nat.pos_of_ne_zero fun hzero => hlen (.inl hzero)) (not_lt.mp fun hlt => hlen (.inr hlt))
      generalize F.write _ _ _ _ _ _ = x at same related ⊢
      generalize F'.write _ _ _ _ _ _ = y at same related ⊢
      obtain ⟨answer, s'⟩ := x
      obtain ⟨_, t'⟩ := y
      obtain rfl := same
      cases answer with
      | error e => exact ⟨rfl, rfl, rfl, related⟩
      | ok ret => exact ⟨rfl, rfl, rfl, h.setSwapWp related _⟩

theorem Simulates.hodoInit (h : Simulates F F' R) (hR : R s t) (stack : Block) (uid gid : Nat) :
    R (F.hodoInit G s stack uid gid) (F'.hodoInit G t stack uid gid) := by
  have zeroed := h.setSwapWp (h.setWp hR ⟨1, 0⟩) ⟨G.hodoNrZones - 2, 0⟩
  have info := h.info zeroed
  rw [ZoneFiles.hodoInit, ZoneFiles.hodoInit, h.info hR]
  split
  · simp only [info]
    exact (h.hodoWriteStruct (h.setInfo zeroed _) _ _ _).volume
  · exact hR

theorem Simulates.gcRead (h : Simulates F F' R) (hR : R s t) (pos : BlockPos) (temp : Block) :
    Alike R (F.gcRead s pos temp) (F'.gcRead t pos temp) := by
  obtain ⟨same, related⟩ := h.readAt hR pos (some temp) hodoDatablockSize
  exact ⟨congrArg (fun r : Int × Option Block => r.2.getD temp) same, related⟩

theorem Simulates.swapOutOne (h : Simulates F F' R) (hR : R s t) (ptr : BlockPos) (temp : Block) :
    Alike R (F.swapOutOne G ptr temp s) (F'.swapOutOne G ptr temp t) := by
  have read := h.gcRead hR ptr temp
  rw [ZoneFiles.swapOutOne, ZoneFiles.swapOutOne]
  generalize F.gcRead s ptr temp = x at read ⊢
  generalize F'.gcRead t ptr temp = y at read ⊢
  obtain ⟨temp', s'⟩ := x
  obtain ⟨_, t'⟩ := y
  obtain ⟨rfl, related⟩ := read
  have wrote := h.hodoWriteStruct (G := G) related (some temp') hodoDatablockSize (ownNumber temp')
  exact ⟨congrArg (fun b : Option Block => b.getD temp') wrote.buf, wrote.volume⟩

theorem Simulates.swapInOne (h : Simulates F F' R) (hR : R s t) (pos : BlockPos) (temp : Block) :
    Alike R (F.swapInOne G pos temp s) (F'.swapInOne G pos temp t) := by
  have read := h.gcRead hR pos temp
  rw [ZoneFiles.swapInOne, ZoneFiles.swapInOne]
  generalize F.gcRead s pos temp = x at read ⊢
  generalize F'.gcRead t pos temp = y at read ⊢
  obtain ⟨temp', s'⟩ := x
  obtain ⟨_, t'⟩ := y
  obtain ⟨rfl, related⟩ := read
  have wrote := h.hodoGCWriteStruct (G := G) related (some temp') hodoDatablockSize
    (ownNumber temp')
  exact ⟨congrArg (fun b : Option Block => b.getD temp') wrote.buf, wrote.volume⟩

/-- The loops carry the position of the next block besides. -/
structure AlikeAt (R : σ → τ → Prop) (x : BlockPos × Block × σ) (y : BlockPos × Block × τ) :
    Prop where
  ptr : x.1 = y.1
  rest : Alike R x.2 y.2

theorem Simulates.swapOutFull (h : Simulates F F' R) (hR : R s t) (temp : Block) :
    Option.Rel (Alike R) (F.swapOutFull G temp s) (F'.swapOutFull G temp t) := by
  refine loop_simulates _ _ (AlikeAt R) _ ?_ loopFuel ⟨rfl, rfl, hR⟩
  rintro ⟨ptr, temp, s⟩ ⟨_, _, t⟩ ⟨rfl, rfl, related⟩
  have out := h.swapOutOne (G := G) related ptr temp
  simp only
  split
  · exact .inr out
  · exact .inl ⟨rfl, out⟩

theorem Simulates.swapOutRest (h : Simulates F F' R) (hR : R s t) (temp : Block) :
    Option.Rel (Alike R) (F.swapOutRest G temp s) (F'.swapOutRest G temp t) := by
  refine loop_simulates _ _ (AlikeAt R) _ ?_ loopFuel ⟨rfl, rfl, hR⟩
  rintro ⟨ptr, temp, s⟩ ⟨_, _, t⟩ ⟨rfl, rfl, related⟩
  have out := h.swapOutOne (G := G) related ptr temp
  simp only [h.info related]
  split
  · exact .inl ⟨rfl, out⟩
  · exact .inr ⟨rfl, related⟩

theorem Simulates.drainFull (h : Simulates F F' R) (hR : R s t) (temp : Block) :
    Option.Rel (Alike R) (F.drainFull G temp s) (F'.drainFull G temp t) := by
  have reset := h.truncate hR (F'.info t).wp.zoneId
  rw [ZoneFiles.drainFull, ZoneFiles.drainFull, h.info hR]
  refine rel_map (h.swapOutFull reset temp) ?_
  rintro ⟨temp, s⟩ ⟨_, t⟩ ⟨rfl, related⟩
  have emptied := h.truncate related (F'.info t).swapWp.zoneId
  simp only [h.info related, h.info emptied]
  exact ⟨rfl, h.setSwapWp emptied _⟩

theorem Simulates.drainRest (h : Simulates F F' R) (hR : R s t) (temp : Block) :
    Option.Rel (Alike R) (F.drainRest G temp s) (F'.drainRest G temp t) := by
  have reset := h.truncate hR (F'.info t).wp.zoneId
  rw [ZoneFiles.drainRest, ZoneFiles.drainRest, h.info hR]
  split
  · refine rel_map (h.swapOutRest reset temp) ?_
    rintro ⟨temp, s⟩ ⟨_, t⟩ ⟨rfl, related⟩
    simp only [h.info related]
    exact ⟨rfl, h.truncate related _⟩
  · exact .some ⟨rfl, hR⟩

theorem Simulates.drainIfFull (h : Simulates F F' R) (hR : R s t) (temp : Block) :
    Sum.LiftRel (Alike R) (Option.Rel (Alike R)) (F.drainIfFull G (temp, s))
      (F'.drainIfFull G (temp, t)) := by
  have drained := h.drainFull (G := G) hR temp
  rw [ZoneFiles.drainIfFull, ZoneFiles.drainIfFull, h.info hR]
  generalize F.drainFull G temp s = x at drained ⊢
  generalize F'.drainFull G temp t = y at drained ⊢
  by_cases hfull : blocksPerZone - 1 ≤ (F'.info t).swapWp.blockIndex
  · rw [if_pos hfull, if_pos hfull]
    cases drained with
    | none => exact .inr .none
    | some alike => exact .inl alike
  · rw [if_neg hfull, if_neg hfull]
    exact .inl ⟨rfl, hR⟩

theorem Simulates.collectTurn (h : Simulates F F' R) (hR : R s t) (temp : Block) :
    Sum.LiftRel (Alike R) (Option.Rel (Alike R)) (F.collectTurn G (temp, s))
      (F'.collectTurn G (temp, t)) := by
  rw [ZoneFiles.collectTurn, ZoneFiles.collectTurn, h.info hR]
  split
  · exact .inr (.some ⟨rfl, hR⟩)
  · have moved := h.swapInOne (G := G) hR (hodoGetNextGCValid (F'.info t)) temp
    generalize F.swapInOne G (hodoGetNextGCValid (F'.info t)) temp s = x at moved ⊢
    generalize F'.swapInOne G (hodoGetNextGCValid (F'.info t)) temp t = y at moved ⊢
    obtain ⟨temp', s'⟩ := x
    obtain ⟨_, t'⟩ := y
    obtain ⟨rfl, related⟩ := moved
    exact h.drainIfFull related temp'

theorem Simulates.collect (h : Simulates F F' R) (hR : R s t) (temp : Block) :
    Option.Rel (Alike R) (F.collect G temp s) (F'.collect G temp t) := by
  have start : Alike R (temp, s) (temp, t) := ⟨rfl, hR⟩
  have turn : ∀ x y, Alike R x y → Sum.LiftRel (Alike R) (Option.Rel (Alike R))
      (F.collectTurn G x) (F'.collectTurn G y) := by
    rintro ⟨temp, s⟩ ⟨_, t⟩ ⟨rfl, related⟩
    exact h.collectTurn related temp
  have ended := loop_simulates (F.collectTurn G) (F'.collectTurn G) _ _ turn loopFuel start
  rw [ZoneFiles.collect, ZoneFiles.collect]
  generalize loop (F.collectTurn G) loopFuel (temp, s) = x at ended ⊢
  generalize loop (F'.collectTurn G) loopFuel (temp, t) = y at ended ⊢
  cases ended with
  | none => exact .none
  | some last => exact last

theorem Simulates.resetZones (h : Simulates F F' R) (turns i : Nat) {s : σ} {t : τ}
    (hR : R s t) : R (F.resetZones turns i s) (F'.resetZones turns i t) := by
  induction turns generalizing i s t with
  | zero => exact hR
  | succ turns ih => exact ih (i + 1) (h.truncate hR i)

/-- A collection over either kind ends if it does over the other. -/
theorem Simulates.GC (h : Simulates F F' R) (hR : R s t) (kmem : Block) :
    Option.Rel R (F.GC G kmem s) (F'.GC G kmem t) := by
  have start := h.setSwapWp (h.setWp hR ⟨1, 0⟩) ⟨G.hodoNrZones - 2, 0⟩
  rw [ZoneFiles.GC, ZoneFiles.GC, h.info hR]
  refine rel_bind (h.collect start kmem) ?_
  rintro ⟨temp, s₁⟩ ⟨_, t₁⟩ ⟨rfl, related₁⟩
  refine rel_map (h.drainRest related₁ temp) ?_
  rintro ⟨temp₂, s₂⟩ ⟨_, t₂⟩ ⟨rfl, related₂⟩
  simp only [ZoneFiles.resetBehind, h.info related₂]
  exact h.resetZones _ _ related₂

end

end LogSimulation
