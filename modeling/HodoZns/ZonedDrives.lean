import HodoZns.ZonedDevices

/-!
# Drives with many zones

Drives of one zone each, side by side. The state of the whole is what each zone holds,
by the first sector of the zone.
-/

namespace ZonedDrives

open ZonefsZones ZonefsFiles ZonedDevices

/-- Zones that do not overlap. -/
structure SideBySide (es : List Extent) : Prop where
  sectors : es.Pairwise fun e e' => e.sector ≠ e'.sector
  apart : es.Pairwise fun e e' => ∀ offset, e.Contains offset → ¬ e'.Contains offset
  capacity : ∀ e ∈ es, 0 ≤ e.capacity ∧ e.capacity ≤ e.size

/-- The only member with the property is the one that is found. -/
theorem find?_of_apart {α : Type} {p : α → Bool} {l : List α}
    (apart : l.Pairwise fun a b => p a = true → ¬ p b = true) {a : α} (hmem : a ∈ l)
    (ha : p a = true) : l.find? p = some a := by
  induction l with
  | nil => cases hmem
  | cons b l ih =>
    obtain ⟨first, rest⟩ := List.pairwise_cons.mp apart
    rcases List.mem_cons.mp hmem with rfl | hmem
    · exact List.find?_cons_of_pos ha
    · have hb : ¬ p b = true := fun hb => first a hmem hb ha
      rw [List.find?_cons_of_neg hb]
      exact ih rest hmem

def zoneAt (es : List Extent) (sector : Nat) : Option Extent := es.find? fun e => e.sector = sector

def zoneOf (es : List Extent) (offset : Int) : Option Extent := es.find? fun e => e.Contains offset

/-- A zone holds its capacity at most. -/
def kept (e : Extent) (d : Nat → List UInt8) : List UInt8 := (d e.sector).take e.capacity.toNat

def contentAt (es : List Extent) (d : Nat → List UInt8) (sector : Nat) : List UInt8 :=
  match zoneAt es sector with
  | none => []
  | some e => kept e d

def store {α : Type} (e : Extent) (r : α × List UInt8) (d : Nat → List UInt8) :
    α × (Nat → List UInt8) :=
  (r.1, Function.update d e.sector r.2)

def steadyDrives (es : List Extent) : BlockDevice (Nat → List UInt8) where
  zoneMgmt op sector nrSectors d :=
    match zoneAt es sector with
    | none => (eIo, d)
    | some e => store e ((steadyDrive e).zoneMgmt op sector nrSectors (kept e d)) d
  reportZone sector d :=
    match zoneAt es sector with
    | none => (none, d)
    | some e => (((steadyDrive e).reportZone sector (kept e d)).1, d)
  dioWrite offset data d :=
    match zoneOf es offset with
    | none => (.refused eIo, d)
    | some e => store e ((steadyDrive e).dioWrite offset data (kept e d)) d
  dioRead offset count d :=
    if count ≤ 0 then ((.completed 0 0 0, []), d)
    else
      match zoneOf es offset with
      | none => ((.refused eIo, []), d)
      | some e => (((steadyDrive e).dioRead offset count (kept e d)).1, d)
  request _ d := (0, d)

section

variable {es : List Extent} {e : Extent} {d : Nat → List UInt8}

theorem SideBySide.zoneAt (side : SideBySide es) (he : e ∈ es) : zoneAt es e.sector = some e := by
  refine find?_of_apart (side.sectors.imp fun hne ha hb => hne ?_) he (decide_eq_true rfl)
  exact (of_decide_eq_true ha).trans (of_decide_eq_true hb).symm

theorem SideBySide.zoneOf (side : SideBySide es) (he : e ∈ es) {offset : Int}
    (h : e.Contains offset) : zoneOf es offset = some e := by
  refine find?_of_apart (side.apart.imp fun hno ha hb => ?_) he (decide_eq_true h)
  exact hno offset (of_decide_eq_true ha) (of_decide_eq_true hb)

theorem SideBySide.contentAt (side : SideBySide es) (he : e ∈ es) (d : Nat → List UInt8) :
    contentAt es d e.sector = kept e d := by
  rw [ZonedDrives.contentAt, side.zoneAt he]

theorem kept_length (side : SideBySide es) (he : e ∈ es) (d : Nat → List UInt8) :
    ((kept e d).length : Int) ≤ e.capacity := by
  have hcap := (side.capacity e he).1
  rw [kept, List.length_take]
  omega

theorem kept_update (e : Extent) (d : Nat → List UInt8) {c : List UInt8}
    (h : (c.length : Int) ≤ e.capacity) : kept e (Function.update d e.sector c) = c := by
  rw [kept, Function.update_self]
  exact List.take_of_length_le (by omega)

theorem elsewhere_update (es : List Extent) (e : Extent) (d : Nat → List UInt8) (c : List UInt8) :
    Elsewhere es (contentAt es) e.sector d (Function.update d e.sector c) := by
  intro e' _ hne
  rw [contentAt, contentAt]
  cases hzone : zoneAt es e'.sector with
  | none => rfl
  | some e₁ =>
    have found : es.find? (fun e => decide (e.sector = e'.sector)) = some e₁ := hzone
    have held := List.find?_some found
    have hsector : e₁.sector = e'.sector := of_decide_eq_true held
    simp only [kept]
    rw [Function.update_of_ne (hsector ▸ hne)]

theorem untouched_update (side : SideBySide es) (he : e ∈ es) (d : Nat → List UInt8) :
    Untouched es (contentAt es) d (Function.update d e.sector (kept e d)) := by
  intro e' he'
  by_cases hsector : e'.sector = e.sector
  · rw [hsector, side.contentAt he, side.contentAt he]
    exact kept_update e d (kept_length side he d)
  · exact elsewhere_update es e d _ e' he' hsector

theorem managed_length_le {before after : List UInt8} {op : ReqOp} {ret : Int}
    (h : Managed e before op ret after) (hcap : 0 ≤ e.capacity)
    (hle : (before.length : Int) ≤ e.capacity) : (after.length : Int) ≤ e.capacity := by
  cases h with
  | failed hret => exact hle
  | opened => exact hle
  | closed => exact hle
  | reset => exact hcap
  | finished padding hlen => exact hlen.le

theorem appended_length_le {before after data : List UInt8} {r : DioResult}
    (h : Appended data before r after) : after.length ≤ (before ++ data).length := by
  cases h with
  | refused ret hret hend => simp
  | failed size error ret arrived part herror hend => simpa using part.length_le
  | written arrived part some => simpa using part.length_le

/-- A write at the write pointer is in the zone. -/
theorem contains_wp {c data : List UInt8} (hsize : e.capacity ≤ e.size) (hdata : data ≠ [])
    (h : ((c ++ data).length : Int) ≤ e.capacity) : e.Contains (e.start + c.length) := by
  have hpos := List.length_pos_iff.mpr hdata
  rw [List.length_append] at h
  constructor
  · omega
  · omega

theorem steadyDrives_lawful (side : SideBySide es) :
    ZonedDevice (steadyDrives es) es (contentAt es) := by
  have single : ∀ e ∈ es, ZonedDevice (steadyDrive e) [e] fun c _ => c := fun e he =>
    steadyDrive_lawful (side.capacity e he).1 (side.capacity e he).2
  constructor
  · exact fun e he => (side.capacity e he).2
  · intro e he op d
    have managed := ((single e he).mgmt e (List.mem_singleton.mpr rfl) op (kept e d)).1
    simp only [steadyDrives, side.zoneAt he, side.contentAt he, store]
    refine ⟨?_, elsewhere_update es e d _⟩
    rw [kept_update e d (managed_length_le managed (side.capacity e he).1 (kept_length side he d))]
    exact managed
  · intro e he d
    have report := ((single e he).report e (List.mem_singleton.mpr rfl) (kept e d)).2
    simp only [steadyDrives, side.zoneAt he, side.contentAt he]
    exact ⟨fun _ _ => rfl, report⟩
  · intro e he data d hdata h
    rw [side.contentAt he] at h ⊢
    have appended := ((single e he).write e (List.mem_singleton.mpr rfl) data (kept e d) hdata h).1
    have hcontains := contains_wp (side.capacity e he).2 hdata h
    simp only [steadyDrives, side.zoneOf he hcontains, store]
    refine ⟨?_, elsewhere_update es e d _⟩
    have hlen := appended_length_le appended
    rw [side.contentAt he, kept_update e d (by omega)]
    exact appended
  · intro e he offset data d hcontains hne
    rw [side.contentAt he] at hne
    obtain ⟨misplaced, same⟩ := (single e he).misplaced e (List.mem_singleton.mpr rfl) offset data
      (kept e d) hcontains hne
    simp only [steadyDrives, side.zoneOf he hcontains, store]
    have hkept : ((steadyDrive e).dioWrite offset data (kept e d)).2 = kept e d :=
      same e (List.mem_singleton.mpr rfl)
    refine ⟨misplaced, ?_⟩
    rw [hkept]
    exact untouched_update side he d
  · intro offset data d houtside
    have hnone : zoneOf es offset = none :=
      List.find?_eq_none.mpr fun e he h => houtside e he (of_decide_eq_true h)
    simp only [steadyDrives, hnone]
    exact fun _ _ => rfl
  · intro offset count d
    simp only [steadyDrives]
    split
    · exact fun _ _ => rfl
    · split
      · exact fun _ _ => rfl
      · exact fun _ _ => rfl
  · intro e he pos count d hpos hle
    rw [side.contentAt he] at hle ⊢
    by_cases hcount : count ≤ 0
    · simp only [steadyDrives, if_pos hcount]
      exact .read 0 [] List.nil_prefix
    · have hcontains : e.Contains (e.start + pos) := by
        have hcap := kept_length side he d
        have hsize := (side.capacity e he).2
        constructor
        · omega
        · omega
      simp only [steadyDrives, if_neg hcount, side.zoneOf he hcontains]
      exact (single e he).read e (List.mem_singleton.mpr rfl) pos count (kept e d) hpos hle
  · exact fun _ _ _ _ => rfl

theorem steadyDrives_errorFree (side : SideBySide es) :
    ErrorFree (steadyDrives es) es (contentAt es) := by
  have single : ∀ e ∈ es, ErrorFree (steadyDrive e) [e] fun c _ => c := fun e he =>
    steadyDrive_errorFree (side.capacity e he).1 (side.capacity e he).2
  refine ⟨steadyDrives_lawful side, ?_, ?_, ?_⟩
  · intro e he op d hop
    simp only [steadyDrives, side.zoneAt he, store]
    exact (single e he).managed e (List.mem_singleton.mpr rfl) op (kept e d) hop
  · intro e he data d hdata h
    rw [side.contentAt he] at h ⊢
    have hcontains := contains_wp (side.capacity e he).2 hdata h
    simp only [steadyDrives, side.zoneOf he hcontains, store]
    exact (single e he).appended e (List.mem_singleton.mpr rfl) data (kept e d) hdata h
  · intro e he pos count d hpos hcount hle
    rw [side.contentAt he] at hle ⊢
    have hcontains : e.Contains (e.start + pos) := by
      have hcap := kept_length side he d
      have hsize := (side.capacity e he).2
      constructor
      · omega
      · omega
    simp only [steadyDrives, if_neg (not_le.mpr hcount), side.zoneOf he hcontains]
    exact (single e he).readOut e (List.mem_singleton.mpr rfl) pos count (kept e d) hpos hcount hle

end

end ZonedDrives
