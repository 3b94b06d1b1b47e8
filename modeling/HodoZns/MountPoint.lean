import HodoZns.FuelLoop
import HodoZns.Layout

/-!
# Finding the mount point

`hodo_init` reads `/proc/self/mountinfo` through a buffer of 4096 bytes and takes
it apart with `strsep`, which moves the pointer it is given. That pointer is the
buffer's own, so after the first piece the next `kernel_read` is not given the
start of the buffer any more, and the buffer is not freed either.
-/

namespace MountPoint

open FuelLoop ByteBlock Layout

def bytes (s : String) : List UInt8 := s.toList.map chr

/-- An offset into the buffer, or NULL. An access outside the buffer has no result. -/
abbrev Pointer := Option Nat

/-- The first of the `left` offsets from `p` on whose byte passes the test. -/
def scan (mem : Block) (test : UInt8 → Bool) : (left : Nat) → (p : Nat) → Option Nat
  | 0, _ => none
  | left + 1, p => if test (byteAt mem p) then some p else scan mem test left (p + 1)

def strlen (mem : Block) (s : Nat) : Option Nat :=
  (scan mem (· == 0) (4096 - s) s).map (· - s)

/-- `*p = 0`. -/
def terminate (mem : Block) (p : Nat) : Block := copyIn mem p 1 fun _ => 0

/-- `strsep(&s, delim)` for one delimiter: the token, what `s` becomes, and the bytes. -/
def strsep (mem : Block) (s : Pointer) (delim : UInt8) : Option (Pointer × Pointer × Block) :=
  match s with
  | none => some (none, none, mem)
  | some s => do
    let stop ← scan mem (fun b => b == 0 || b == delim) (4096 - s) s
    if byteAt mem stop = 0 then pure (some s, none, mem)
    else pure (some s, some (stop + 1), terminate mem stop)

def memcmpZero (mem : Block) (p : Nat) (pat : List UInt8) : Bool :=
  (List.range pat.length).all fun i => byteAt mem (p + i) == pat.getD i 0

/-- The loop of `strstr`, over the bytes that are left of the string. -/
def strstrFrom (mem : Block) (pat : List UInt8) : (l1 : Nat) → (s1 : Nat) → Pointer
  | 0, _ => none
  | l1 + 1, s1 =>
    if l1 + 1 < pat.length then none
    else if memcmpZero mem s1 pat then some s1
    else strstrFrom mem pat l1 (s1 + 1)

def strstr (mem : Block) (s : Nat) (pat : List UInt8) : Option Pointer :=
  (strlen mem s).map fun l1 => strstrFrom mem pat l1 s

structure Parser where
  mem : Block
  buf : Pointer
  mountPointPath : Bytes 16
  /-- what `kernel_read` was given, call by call -/
  reads : List Pointer

/-- The loop over the tokens of a line: the one `i` places ahead, if there is one. -/
def nthToken : (i : Nat) → Block → Pointer → Option (Pointer × Block)
  | 0, mem, line => do
    let (token, _, mem) ← strsep mem line (chr ' ')
    pure (token, mem)
  | i + 1, mem, line => do
    let (token, line, mem) ← strsep mem line (chr ' ')
    match token with
    | none => pure (none, mem)
    | some _ => nthToken i mem line

/-- `memcpy(mount_point_path, mntpoint, sizeof(mount_point_path))`. -/
def Parser.takePath (p : Parser) (mntpoint : Nat) : Option Parser :=
  if mntpoint + 16 ≤ 4096 then
    some { p with mountPointPath := ofBytes fun i => byteAt p.mem (mntpoint + i) }
  else none

/-- What is done with a line: `.inl` goes on to the next one, `.inr` leaves the loop. -/
def takeLine (p : Parser) (line : Nat) : Option (Parser ⊕ Parser) := do
  match ← strstr p.mem line (bytes "zonefs") with
  | none => pure (.inl p)
  | some _ =>
    match ← strstr p.mem line (bytes " - ") with
    | none => pure (.inl p)
    | some sep =>
      let (mntpoint, mem) ← nthToken 4 (terminate p.mem sep) (some line)
      let p := { p with mem := mem }
      match mntpoint with
      | none => pure (.inl p)
      | some mntpoint => return .inr (← p.takePath mntpoint)

/-- One turn of the loop over the lines. -/
def lineTurn (p : Parser) : Option (Parser ⊕ Parser) := do
  let (line, buf, mem) ← strsep p.mem p.buf (chr '\n')
  let p := { p with buf := buf, mem := mem }
  match line with
  | none => pure (.inr p)
  | some line => takeLine p line

/-- An access outside the buffer ends the loop without a parser. -/
def lineStep (p : Parser) : Parser ⊕ Option Parser :=
  match lineTurn p with
  | some (.inl p) => .inl p
  | some (.inr p) => .inr (some p)
  | none => .inr none

/-- More lines than the buffer can hold. -/
def lineFuel : Nat := 4098

def readLines (p : Parser) : Option Parser := (loop lineStep lineFuel p).join

/-- `kernel_read` of a piece that is not empty, and `buf[n] = 0`. -/
def kernelRead (p : Parser) (piece : List UInt8) : Option Parser :=
  match p.buf with
  | none => none
  | some buf =>
    if buf + piece.length < 4096 then
      some { p with
        mem :=
          terminate (copyIn p.mem buf piece.length fun i => piece.getD i 0) (buf + piece.length)
        reads := p.reads ++ [p.buf] }
    else none

/-- The loop over the pieces; at the end of the file `kernel_read` returns 0. -/
def parseMountinfo : List (List UInt8) → Parser → Option Parser
  | [], p => some { p with reads := p.reads ++ [p.buf] }
  | piece :: rest, p => do
    let p ← kernelRead p piece
    let p ← readLines p
    parseMountinfo rest p

/-- The parser with the buffer just allocated. -/
def startParser (mem : Block) (path : Bytes 16) : Parser := ⟨mem, some 0, path, []⟩

theorem scan_spec {mem : Block} {test : UInt8 → Bool} {left p e : Nat}
    (h : scan mem test left p = some e) : p ≤ e ∧ e < p + left := by
  induction left generalizing p with
  | zero => cases h
  | succ left ih =>
    rw [scan] at h
    split at h
    · obtain rfl := Option.some.inj h
      omega
    · have := ih h
      omega

/-- The bytes from a pointer to the end of the buffer, and one for the pointer. -/
def ahead : Pointer → Nat
  | none => 0
  | some s => 4097 - s

theorem strsep_spec {mem mem' : Block} {s s' line : Pointer} {delim : UInt8}
    (h : strsep mem s delim = some (line, s', mem')) :
    line = s ∧ s' ≠ some 0 ∧ (line ≠ none → ahead s' < ahead s) := by
  cases s with
  | none =>
    obtain ⟨rfl, rfl, -⟩ : none = line ∧ none = s' ∧ mem = mem' := by simpa [strsep] using h
    exact ⟨rfl, nofun, fun hline => absurd rfl hline⟩
  | some s =>
    simp only [strsep, Option.bind_eq_bind, Option.bind_eq_some_iff] at h
    obtain ⟨stop, hstop, h⟩ := h
    have hspec := scan_spec hstop
    split at h
    · obtain ⟨rfl, rfl, -⟩ : some s = line ∧ none = s' ∧ mem = mem' := by simpa using h
      refine ⟨rfl, nofun, fun _ => ?_⟩
      simp only [ahead]
      omega
    · obtain ⟨rfl, rfl, -⟩ : some s = line ∧ some (stop + 1) = s' ∧ terminate mem stop = mem' := by
        simpa using h
      refine ⟨rfl, by simp, fun _ => ?_⟩
      simp only [ahead]
      omega

/-- Neither the pointer nor the calls of `kernel_read` change. -/
structure SamePlace (p q : Parser) : Prop where
  buf : q.buf = p.buf
  reads : q.reads = p.reads

theorem takePath_samePlace {p q : Parser} {mntpoint : Nat} (h : p.takePath mntpoint = some q) :
    SamePlace p q := by
  rw [Parser.takePath] at h
  split at h
  · obtain rfl := Option.some.inj h
    exact ⟨rfl, rfl⟩
  · cases h

theorem takeLine_samePlace {p : Parser} {line : Nat} {r : Parser ⊕ Parser}
    (h : takeLine p line = some r) : SamePlace p (r.elim id id) := by
  simp only [takeLine, Option.bind_eq_bind, Option.bind_eq_some_iff] at h
  obtain ⟨found, -, h⟩ := h
  cases found with
  | none =>
    obtain rfl := Option.some.inj h
    exact ⟨rfl, rfl⟩
  | some zonefs =>
    simp only [Option.bind_eq_some_iff] at h
    obtain ⟨sep, -, h⟩ := h
    cases sep with
    | none =>
      obtain rfl := Option.some.inj h
      exact ⟨rfl, rfl⟩
    | some sep =>
      simp only [Option.bind_eq_some_iff] at h
      obtain ⟨⟨mntpoint, mem⟩, -, h⟩ := h
      cases mntpoint with
      | none =>
        obtain rfl := Option.some.inj h
        exact ⟨rfl, rfl⟩
      | some mntpoint =>
        simp only [Option.bind_eq_some_iff] at h
        obtain ⟨q, hq, h⟩ := h
        obtain rfl := Option.some.inj h
        have same := takePath_samePlace hq
        exact ⟨same.buf, same.reads⟩

/-- A turn takes the pointer off the start, and one that goes on takes it forward. -/
theorem lineTurn_spec {p : Parser} {r : Parser ⊕ Parser} (h : lineTurn p = some r) :
    (r.elim id id).buf ≠ some 0 ∧ (r.elim id id).reads = p.reads ∧
      ∀ q, r = .inl q → ahead q.buf < ahead p.buf := by
  simp only [lineTurn, Option.bind_eq_bind, Option.bind_eq_some_iff] at h
  obtain ⟨⟨line, buf, mem⟩, hsep, h⟩ := h
  obtain ⟨-, moved, forward⟩ := strsep_spec hsep
  cases line with
  | none =>
    obtain rfl := Option.some.inj h
    exact ⟨moved, rfl, nofun⟩
  | some line =>
    have same := takeLine_samePlace h
    refine ⟨?_, same.reads, ?_⟩
    · rw [same.buf]
      exact moved
    · rintro q rfl
      have hbuf : q.buf = buf := same.buf
      rw [hbuf]
      exact forward nofun

/-- The loop over the lines ends within its fuel, off the start of the buffer. -/
theorem readLines_spec (p : Parser) (h : ahead p.buf ≤ 4097) :
    ∃ r, loop lineStep lineFuel p = some r ∧
      ∀ q, r = some q → q.buf ≠ some 0 ∧ q.reads = p.reads := by
  refine loop_total lineStep (fun q => q.reads = p.reads) (fun q => ahead q.buf)
    (fun r => ∀ q, r = some q → q.buf ≠ some 0 ∧ q.reads = p.reads) ?_ ?_ rfl ?_
  · intro s s' inv hs
    cases ht : lineTurn s with
    | none =>
      rw [lineStep, ht] at hs
      cases hs
    | some r =>
      obtain ⟨-, reads, forward⟩ := lineTurn_spec ht
      rw [lineStep, ht] at hs
      cases r with
      | inl q =>
        obtain rfl := Sum.inl.inj hs
        exact ⟨reads.trans inv, forward q rfl⟩
      | inr q => cases hs
  · rintro s r inv hs q rfl
    cases ht : lineTurn s with
    | none =>
      rw [lineStep, ht] at hs
      cases hs
    | some r =>
      obtain ⟨moved, reads, -⟩ := lineTurn_spec ht
      rw [lineStep, ht] at hs
      cases r with
      | inl q => cases hs
      | inr q' =>
        obtain rfl := Option.some.inj (Sum.inr.inj hs)
        exact ⟨moved, reads.trans inv⟩
  · simp only [lineFuel]
    omega

theorem ahead_le (s : Pointer) : ahead s ≤ 4097 := by
  cases s with
  | none => exact Nat.zero_le _
  | some s => exact Nat.sub_le _ _

theorem readLines_moves {p q : Parser} (h : readLines p = some q) :
    q.buf ≠ some 0 ∧ q.reads = p.reads := by
  obtain ⟨r, hr, hspec⟩ := readLines_spec p (ahead_le _)
  rw [readLines, hr] at h
  exact hspec q h

theorem kernelRead_spec {p q : Parser} {piece : List UInt8} (h : kernelRead p piece = some q) :
    q.buf = p.buf ∧ q.reads = p.reads ++ [p.buf] := by
  rw [kernelRead] at h
  split at h
  · cases h
  · split at h
    · obtain rfl := Option.some.inj h
      exact ⟨rfl, rfl⟩
    · cases h

/-- The next call of `kernel_read` gets the pointer as it is. -/
theorem next_read {pieces : List (List UInt8)} {p q : Parser}
    (h : parseMountinfo pieces p = some q) : ∃ later, q.reads = p.reads ++ p.buf :: later := by
  induction pieces generalizing p with
  | nil =>
    obtain rfl := Option.some.inj h
    exact ⟨[], rfl⟩
  | cons piece rest ih =>
    simp only [parseMountinfo, Option.bind_eq_bind, Option.bind_eq_some_iff] at h
    obtain ⟨p₁, h₁, p₂, h₂, h⟩ := h
    obtain ⟨later, hq⟩ := ih h
    rw [(readLines_moves h₂).2, (kernelRead_spec h₁).2] at hq
    exact ⟨_, by rw [hq, List.append_assoc]; rfl⟩

/-- The call after the first piece does not get the start of the buffer. -/
theorem second_read {piece : List UInt8} {rest : List (List UInt8)} {p q : Parser}
    (h : parseMountinfo (piece :: rest) p = some q) : ∃ r ∈ q.reads, r ≠ some 0 := by
  simp only [parseMountinfo, Option.bind_eq_bind, Option.bind_eq_some_iff] at h
  obtain ⟨p₁, -, p₂, h₂, h⟩ := h
  obtain ⟨later, hq⟩ := next_read h
  refine ⟨p₂.buf, ?_, (readLines_moves h₂).1⟩
  rw [hq]
  exact List.mem_append_right _ List.mem_cons_self

def lines (content : List UInt8) : List (List UInt8) := content.splitOn (chr '\n')

def fields (line : List UInt8) : List (List UInt8) := line.splitOn (chr ' ')

/-- The field after the one that is a single hyphen. -/
def fsType (line : List UInt8) : Option (List UInt8) :=
  ((fields line).dropWhile (· ≠ bytes "-"))[1]?

/-- A content that mounts zonefs once, at `path`, and the pieces in which it arrives. -/
structure Mountinfo (content : List UInt8) (pieces : List (List UInt8)) (path : List UInt8) :
    Prop where
  delivered : pieces.flatten = content
  sizes : ∀ piece ∈ pieces, 1 ≤ piece.length ∧ piece.length ≤ 4095
  mounted : ∃ line,
    (lines content).filter (fun line => fsType line = some (bytes "zonefs")) = [line] ∧
    (fields line)[4]? = some path
  short : path.length ≤ 15

/-- `path` with the NUL that ends it. -/
def HoldsString (array : Bytes 16) (path : List UInt8) : Prop :=
  ∀ i ≤ path.length, byteAt array i = path.getD i 0

/-- The loop ends with the mount point, and gives `kernel_read` nothing but the buffer's start. -/
def Serves (mem : Block) (old : Bytes 16) (pieces : List (List UInt8)) (path : List UInt8) : Prop :=
  ∃ p, parseMountinfo pieces (startParser mem old) = some p ∧ HoldsString p.mountPointPath path ∧
    ∀ r ∈ p.reads, r = some 0

theorem mount_point_never_served (mem : Block) (old : Bytes 16) {content : List UInt8}
    {pieces : List (List UInt8)} {path : List UInt8} (info : Mountinfo content pieces path) :
    ¬ Serves mem old pieces path := by
  rintro ⟨p, hp, -, starts⟩
  cases pieces with
  | nil =>
    -- an empty file mounts nothing
    obtain ⟨line, hline, -⟩ := info.mounted
    rw [← info.delivered] at hline
    cases hline
  | cons piece rest =>
    obtain ⟨r, hr, hne⟩ := second_read hp
    exact hne (starts r hr)

def oneMount : List UInt8 := bytes "1 1 8:0 / /m rw - zonefs d rw\n"

theorem oneMount_info : Mountinfo oneMount [oneMount] (bytes "/m") where
  delivered := List.flatten_singleton
  sizes := by decide
  mounted := ⟨bytes "1 1 8:0 / /m rw - zonefs d rw", by decide, by decide⟩
  short := by decide

theorem oneMount_never_served :
    Mountinfo oneMount [oneMount] (bytes "/m") ∧ ¬ Serves zeros zeros [oneMount] (bytes "/m") :=
  ⟨oneMount_info, mount_point_never_served zeros zeros oneMount_info⟩

/-- The mount point of another file system has the word in it. -/
def twoMounts : List UInt8 := bytes "1 1 8:0 / /zonefs rw - ext4 d rw\n" ++ oneMount

theorem otherMount_taken :
    Mountinfo twoMounts [twoMounts] (bytes "/m") ∧
    ¬ Serves zeros zeros [twoMounts] (bytes "/m") := by
  refine ⟨⟨List.flatten_singleton, by decide, ?_, by decide⟩, ?_⟩
  · exact ⟨bytes "1 1 8:0 / /m rw - zonefs d rw", by decide +kernel, by decide⟩
  · have htaken : (parseMountinfo [twoMounts] (startParser zeros zeros)).map
        (fun p => (byteAt p.mountPointPath 1, p.reads)) = some (chr 'z', [some 0, some 33]) := by
      decide +kernel
    rintro ⟨p, hp, holds, -⟩
    rw [hp] at htaken
    have hz : byteAt p.mountPointPath 1 = chr 'z' := (Prod.mk.inj (Option.some.inj htaken)).1
    have hm := holds 1 (by decide)
    rw [hz] at hm
    exact absurd hm (by decide)

end MountPoint
