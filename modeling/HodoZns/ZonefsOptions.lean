import HodoZns.MountPoint
import HodoZns.ZonefsZones
import Mathlib.Data.List.ReduceOption

/-!
# Mount options of zonefs

The options are taken one after the other; the first one that is not known ends
the parsing, and those in front of it stay in force. Exactly one of the four
`errors=` options is in force at any time.
-/

namespace ZonefsOptions

open Layout MountPoint ZonefsZones

inductive MountOption where
  | errorsRo
  | errorsZro
  | errorsZol
  | errorsRepair
  | explicitOpen
  deriving DecidableEq

/-- The table `tokens`. -/
def tokens : List (MountOption × List UInt8) :=
  [(.errorsRo, bytes "errors=remount-ro"), (.errorsZro, bytes "errors=zone-ro"),
    (.errorsZol, bytes "errors=zone-offline"), (.errorsRepair, bytes "errors=repair"),
    (.explicitOpen, bytes "explicit-open")]

/-- `match_token` with patterns in which there is no `%`. -/
def matchToken (p : List UInt8) : Option MountOption :=
  (tokens.find? fun t => t.2 == p).map Prod.fst

/-- The other `errors=` options are taken out, and this one is put in. -/
def setErrors (sbi : SbInfo) (ro zro zol repair : Bool) : SbInfo :=
  { sbi with errorsRo := ro, errorsZro := zro, errorsZol := zol, errorsRepair := repair }

def MountOption.set (sbi : SbInfo) : MountOption → SbInfo
  | .errorsRo => setErrors sbi true false false false
  | .errorsZro => setErrors sbi false true false false
  | .errorsZol => setErrors sbi false false true false
  | .errorsRepair => setErrors sbi false false false true
  | .explicitOpen => { sbi with explicitOpen := true }

def parseTokens : List (List UInt8) → SbInfo → Int × SbInfo
  | [], sbi => (0, sbi)
  | p :: ps, sbi =>
    if p = [] then parseTokens ps sbi
    else
      match matchToken p with
      | some o => parseTokens ps (o.set sbi)
      | none => (eInval, sbi)

/-- `options` is NULL or a string that `strsep` takes apart. -/
def zonefsParseOptions (options : Option (List UInt8)) (sbi : SbInfo) : Int × SbInfo :=
  match options with
  | none => (0, sbi)
  | some options => parseTokens (options.splitOn (chr ',')) sbi

def zonefsShowOptions (sbi : SbInfo) : List UInt8 :=
  (if sbi.errorsRo then bytes ",errors=remount-ro" else []) ++
    (if sbi.errorsZro then bytes ",errors=zone-ro" else []) ++
    (if sbi.errorsZol then bytes ",errors=zone-offline" else []) ++
    (if sbi.errorsRepair then bytes ",errors=repair" else [])

/-- `sync_filesystem` has nothing to write. -/
def zonefsRemount (data : Option (List UInt8)) (sbi : SbInfo) : Int × SbInfo :=
  zonefsParseOptions data sbi

/-- What is done about an error. -/
inductive ErrorPolicy where
  | remountRo
  | zoneRo
  | zoneOffline
  | repair
  deriving DecidableEq

def MountOption.policy : MountOption → Option ErrorPolicy
  | .errorsRo => some .remountRo
  | .errorsZro => some .zoneRo
  | .errorsZol => some .zoneOffline
  | .errorsRepair => some .repair
  | .explicitOpen => none

/-- The policy is the one in force. -/
structure InForce (sbi : SbInfo) (policy : ErrorPolicy) : Prop where
  ro : sbi.errorsRo = decide (policy = .remountRo)
  zro : sbi.errorsZro = decide (policy = .zoneRo)
  zol : sbi.errorsZol = decide (policy = .zoneOffline)
  repair : sbi.errorsRepair = decide (policy = .repair)

theorem InForce.unique {sbi : SbInfo} {p q : ErrorPolicy} (hp : InForce sbi p)
    (hq : InForce sbi q) : p = q := by
  have hro := hp.ro.symm.trans hq.ro
  have hzro := hp.zro.symm.trans hq.zro
  have hzol := hp.zol.symm.trans hq.zol
  have hrepair := hp.repair.symm.trans hq.repair
  cases p with
  | remountRo => exact (of_decide_eq_true hro.symm).symm
  | zoneRo => exact (of_decide_eq_true hzro.symm).symm
  | zoneOffline => exact (of_decide_eq_true hzol.symm).symm
  | repair => exact (of_decide_eq_true hrepair.symm).symm

/-- The options of the tokens in front of the first unknown one. -/
def acceptedTokens (ps : List (List UInt8)) : List MountOption :=
  (((ps.filter (· ≠ [])).map matchToken).takeWhile Option.isSome).reduceOption

def accepted (options : List UInt8) : List MountOption := acceptedTokens (options.splitOn (chr ','))

/-- No token is unknown. -/
def AllKnown (options : List UInt8) : Prop :=
  ∀ p ∈ options.splitOn (chr ','), p ≠ [] → (matchToken p).isSome

/-- The last policy that is asked for; without one the old one stays. -/
def policyAfter (old : ErrorPolicy) (os : List MountOption) : ErrorPolicy :=
  (os.filterMap MountOption.policy).getLastD old

theorem InForce.set {sbi : SbInfo} {p : ErrorPolicy} (h : InForce sbi p) (o : MountOption) :
    InForce (o.set sbi) (o.policy.getD p) := by
  cases o with
  | errorsRo => exact ⟨rfl, rfl, rfl, rfl⟩
  | errorsZro => exact ⟨rfl, rfl, rfl, rfl⟩
  | errorsZol => exact ⟨rfl, rfl, rfl, rfl⟩
  | errorsRepair => exact ⟨rfl, rfl, rfl, rfl⟩
  | explicitOpen => exact ⟨h.ro, h.zro, h.zol, h.repair⟩

theorem inForce_foldl {sbi : SbInfo} {p : ErrorPolicy} (h : InForce sbi p)
    (os : List MountOption) : InForce (os.foldl MountOption.set sbi) (policyAfter p os) := by
  induction os generalizing sbi p with
  | nil => exact h
  | cons o os ih =>
    have next := ih (h.set o)
    cases hp : o.policy with
    | none => simpa [policyAfter, hp] using next
    | some q =>
      have hlast : policyAfter p (o :: os) = policyAfter q os := by
        simp only [policyAfter, List.filterMap_cons_some hp]
        exact List.getLastD_cons
      rw [hlast]
      simpa [hp] using next

theorem explicitOpen_foldl (sbi : SbInfo) (os : List MountOption) :
    (os.foldl MountOption.set sbi).explicitOpen =
      (sbi.explicitOpen || decide (.explicitOpen ∈ os)) := by
  induction os generalizing sbi with
  | nil => simp
  | cons o os ih =>
    rw [List.foldl_cons, ih]
    cases o <;> simp [MountOption.set, setErrors]

/-- Nothing but the options is changed. -/
theorem foldl_frame (sbi : SbInfo) (os : List MountOption) :
    let sbi' := os.foldl MountOption.set sbi
    sbi' = { setErrors sbi sbi'.errorsRo sbi'.errorsZro sbi'.errorsZol sbi'.errorsRepair with
      explicitOpen := sbi'.explicitOpen } := by
  induction os generalizing sbi with
  | nil => rfl
  | cons o os ih =>
    have next := ih (o.set sbi)
    cases o <;> exact next

theorem parseTokens_cons_known {p : List UInt8} {o : MountOption} (hne : p ≠ [])
    (hp : matchToken p = some o) (ps : List (List UInt8)) (sbi : SbInfo) :
    parseTokens (p :: ps) sbi = parseTokens ps (o.set sbi) := by
  rw [parseTokens, if_neg hne, hp]

/-- The loop over the tokens in closed form. -/
theorem parseTokens_eq (ps : List (List UInt8)) (sbi : SbInfo) :
    (parseTokens ps sbi).2 = (acceptedTokens ps).foldl MountOption.set sbi ∧
      ((parseTokens ps sbi).1 = 0 ↔ ∀ p ∈ ps, p ≠ [] → (matchToken p).isSome) := by
  induction ps generalizing sbi with
  | nil => simp [parseTokens, acceptedTokens]
  | cons p ps ih =>
    by_cases hne : p = []
    · subst hne
      simpa [parseTokens, acceptedTokens] using ih sbi
    · cases hp : matchToken p with
      | none =>
        constructor
        · simp [parseTokens, acceptedTokens, hne, hp]
        · simp [parseTokens, hne, hp, eInval]
      | some o =>
        rw [parseTokens_cons_known hne hp]
        obtain ⟨hstate, hret⟩ := ih (o.set sbi)
        constructor
        · simpa [acceptedTokens, hne, hp] using hstate
        · rw [hret]
          simp [hp]

theorem parse_eq (options : List UInt8) (sbi : SbInfo) :
    (zonefsParseOptions (some options) sbi).2 = (accepted options).foldl MountOption.set sbi ∧
      ((zonefsParseOptions (some options) sbi).1 = 0 ↔ AllKnown options) :=
  parseTokens_eq (options.splitOn (chr ',')) sbi

/-- The policy after a parse is the last one asked for in front of the first unknown option,
explicit open stays once it is set, and the rest of the super block is left alone. -/
theorem parse_options_outcome {sbi : SbInfo} {p : ErrorPolicy} (h : InForce sbi p)
    (options : List UInt8) :
    let r := zonefsParseOptions (some options) sbi
    InForce r.2 (policyAfter p (accepted options)) ∧
      r.2.explicitOpen = (sbi.explicitOpen || decide (.explicitOpen ∈ accepted options)) ∧
      (r.1 = 0 ↔ AllKnown options) ∧
      r.2 = { setErrors sbi r.2.errorsRo r.2.errorsZro r.2.errorsZol r.2.errorsRepair with
        explicitOpen := r.2.explicitOpen } := by
  obtain ⟨hstate, hret⟩ := parse_eq options sbi
  simp only [hstate]
  exact ⟨inForce_foldl h _, explicitOpen_foldl sbi _, hret, foldl_frame sbi _⟩

/-- An option behind the unknown one is not looked at. -/
theorem zoneRo_in_force :
    let r := zonefsParseOptions
      (some (bytes "errors=repair,,explicit-open,errors=zone-ro,quota,errors=repair"))
      ⟨true, false, false, false, false, 8, 0, 1, 0, 1, 0, 12, false⟩
    InForce r.2 .zoneRo ∧ r.2.explicitOpen = true ∧ r.1 ≠ 0 ∧ r.2.maxWroSeqFiles = 1 := by
  have start : InForce ⟨true, false, false, false, false, 8, 0, 1, 0, 1, 0, 12, false⟩ .remountRo :=
    ⟨rfl, rfl, rfl, rfl⟩
  obtain ⟨policy, explicitOpen, ret, frame⟩ := parse_options_outcome start
    (bytes "errors=repair,,explicit-open,errors=zone-ro,quota,errors=repair")
  refine ⟨?_, ?_, ?_, congrArg SbInfo.maxWroSeqFiles frame⟩
  · have asked : policyAfter .remountRo (accepted
        (bytes "errors=repair,,explicit-open,errors=zone-ro,quota,errors=repair")) = .zoneRo := by
      decide +kernel
    rwa [asked] at policy
  · rw [explicitOpen]
    decide +kernel
  · rw [Ne, ret, AllKnown]
    decide +kernel

/-- Nothing but the options is changed, and explicit open is not taken back. -/
structure Reparsed (sbi sbi' : SbInfo) : Prop where
  frame : sbi' = { setErrors sbi sbi'.errorsRo sbi'.errorsZro sbi'.errorsZol sbi'.errorsRepair with
    explicitOpen := sbi'.explicitOpen }
  explicitOpen : sbi.explicitOpen = true → sbi'.explicitOpen = true
  policy : ∀ p, InForce sbi p → ∃ q, InForce sbi' q

theorem reparsed (options : Option (List UInt8)) (sbi : SbInfo) :
    Reparsed sbi (zonefsParseOptions options sbi).2 := by
  cases options with
  | none => exact ⟨rfl, id, fun p h => ⟨p, h⟩⟩
  | some options =>
    rw [(parse_eq options sbi).1]
    constructor
    · exact foldl_frame sbi _
    · intro hopen
      rw [explicitOpen_foldl, hopen, Bool.true_or]
    · exact fun p h => ⟨_, inForce_foldl h _⟩

theorem accepted_shown {sbi : SbInfo} {p : ErrorPolicy} (h : InForce sbi p) :
    ∃ o, accepted (zonefsShowOptions sbi) = [o] ∧ o.policy = some p ∧
      AllKnown (zonefsShowOptions sbi) := by
  rw [zonefsShowOptions, h.ro, h.zro, h.zol, h.repair, AllKnown]
  cases p with
  | remountRo => exact ⟨.errorsRo, by decide +kernel⟩
  | zoneRo => exact ⟨.errorsZro, by decide +kernel⟩
  | zoneOffline => exact ⟨.errorsZol, by decide +kernel⟩
  | repair => exact ⟨.errorsRepair, by decide +kernel⟩

/-- What is shown after options were given, parsed over another super block, brings the policy
over, and no explicit open. -/
theorem parse_shown {sbi sbi₀ : SbInfo} {p p₀ : ErrorPolicy} (h : InForce sbi p)
    (h₀ : InForce sbi₀ p₀) (options : List UInt8) :
    let shown := zonefsShowOptions (zonefsParseOptions (some options) sbi).2
    let r := zonefsParseOptions (some shown) sbi₀
    r.1 = 0 ∧ InForce r.2 (policyAfter p (accepted options)) ∧
      r.2.explicitOpen = sbi₀.explicitOpen := by
  have inForce := inForce_foldl h (accepted options)
  simp only [(parse_eq options sbi).1]
  obtain ⟨o, haccepted, hpolicy, known⟩ := accepted_shown inForce
  obtain ⟨hstate, hret⟩ := parse_eq
    (zonefsShowOptions ((accepted options).foldl MountOption.set sbi)) sbi₀
  rw [hstate, hret, haccepted]
  refine ⟨known, ?_, ?_⟩
  · have set := h₀.set o
    rwa [hpolicy] at set
  · cases o with
    | explicitOpen => cases hpolicy
    | _ => rfl

end ZonefsOptions
