import HodoZns.FileContents

/-!
# Reading a file

A file that holds some data gives back any range of it. The reader goes down
the same pointers as the writer, but computes the way to a block, and the part
of it that is wanted, on its own.
-/

namespace FileReads

open ByteBlock Layout BlockLog ZoneLog LogStore Programs Kernel StoreMachine FileBlocks BlockForest
open BlockFields TreeWrites FileWrites VolumeMachine FileContents

/-- The inode `b` under `n` and the blocks below it hold `data`, and nothing more. -/
structure Contains (s : Store) (n : Nat) (b : Block) (data : List UInt8) : Prop where
  inode : s.content n = some b
  isInode : isDat b = false
  len : fileLen b = data.length
  there : ∀ o, 4088 * o < data.length → dataAt s.content b o ≠ none
  beyond : ∀ o, data.length ≤ 4088 * o → dataAt s.content b o = none
  bytes : ∀ i, i < data.length →
    dataByte (dataAt s.content b (i / 4088)) (i % 4088) = data.getD i 0
  room : data.length ≤ 4088 * s.count

/-- The indices on the way to offset `off` of a tree of depth `k`. -/
def pathOf : Nat → Nat → List Nat
  | 0, _ => []
  | k + 1, off => off / numOfBlockPoses ^ k :: pathOf k (off % numOfBlockPoses ^ k)

theorem blockPath_eq (b : Block) {index : Nat} {f : Field} (hf : fieldOf index = some f) :
    blockPath b index =
      (inodePtr b (Field.number f), pathOf (Field.depth f) (index - Field.start f)) := by
  simp only [fieldOf] at hf
  simp only [blockPath]
  split at hf
  case isTrue hlt =>
    obtain rfl := Option.some.inj hf
    rw [if_pos hlt]
    rfl
  case isFalse hge =>
    rw [if_neg hge]
    split at hf
    case isTrue hlt =>
      obtain rfl := Option.some.inj hf
      rw [if_pos hlt]
      simp [pathOf, Field.depth, Field.start, Field.number, singleIndirect, inodePtr]
    case isFalse hge' =>
      rw [if_neg hge']
      split at hf
      case isTrue hlt =>
        obtain rfl := Option.some.inj hf
        rw [if_pos hlt]
        simp [pathOf, Field.depth, Field.start, Field.number, doubleIndirect, inodePtr]
      case isFalse hge'' =>
        rw [if_neg hge'']
        split at hf
        case isTrue hlt =>
          obtain rfl := Option.some.inj hf
          simp [pathOf, Field.depth, Field.start, Field.number, tripleIndirect, inodePtr,
            Nat.pow_two]
        case isFalse => cases hf

/-- Nothing but the clock moved. -/
structure Unchanged (m m' : Machine Store) : Prop where
  disk : m'.disk = m.disk
  inodes : m'.inodes = m.inodes
  inodeCount : m'.inodeCount = m.inodeCount

theorem Unchanged.refl (m : Machine Store) : Unchanged m m := ⟨rfl, rfl, rfl⟩

theorem Unchanged.trans {m m' m'' : Machine Store} (h : Unchanged m m') (h' : Unchanged m' m'') :
    Unchanged m m'' :=
  ⟨h'.disk.trans h.disk, h'.inodes.trans h.inodes, h'.inodeCount.trans h.inodeCount⟩

theorem unchanged_later (m : Machine Store) : Unchanged m (Machine.later m) := ⟨rfl, rfl, rfl⟩

variable {clock : Nat → Timespec} {m : Machine Store}

section

variable {D : Disk Store} [LikeStore D]

/-- The pointers lead to the block that the writer put there. -/
theorem wp_followPtrs {k p off : Nat} {temp : Block} {Q : Nat → Machine Store → Prop}
    (valid : Valid m.disk) (there : m.disk.content (walk m.disk.content k p off) ≠ none) :
    wp (plain D clock) (followPtrs (pathOf k off) p temp) Q m ↔
      Q (walk m.disk.content k p off) m := by
  induction k generalizing p off temp with
  | zero =>
    rw [pathOf, followPtrs, wp_pure]
    rfl
  | succ k ih =>
    cases hp : m.disk.content p with
    | none =>
      rw [walk, child_of_none hp, walk_zero valid.content_zero] at there
      exact absurd valid.content_zero there
    | some b =>
      have hchild : child m.disk.content p (off / numOfBlockPoses ^ k) =
          blockPtr b (off / numOfBlockPoses ^ k) := by
        rw [child, hp]
      simp only [walk, hchild] at there ⊢
      simp only [pathOf, followPtrs, wp_bind]
      exact (wp_hodoRead_some valid hp _ _).trans (ih there)

/-- A block that is there is what the reader gets. -/
theorem wp_hodoReadNthBlock_iff {b t dst : Block} {index : Nat} (valid : Valid m.disk)
    (ht : dataAt m.disk.content b index = some t) :
    ∃ m', Unchanged m m' ∧ ∀ Q : Block → Machine Store → Prop,
      (wp (plain D clock) (hodoReadNthBlock b index dst) Q m ↔ Q t m') := by
  cases hf : fieldOf index with
  | none =>
    rw [dataAt_none hf valid.content_zero] at ht
    cases ht
  | some f =>
    rw [dataAt_field hf] at ht
    simp only [hodoReadNthBlock, Int.toNat_natCast, blockPath_eq b hf]
    rw [if_neg (by omega)]
    by_cases hpath : pathOf (Field.depth f) (index - Field.start f) = []
    · have hdepth : Field.depth f = 0 := by
        cases hk : Field.depth f with
        | zero => rfl
        | succ k =>
          rw [hk] at hpath
          cases hpath
      simp only [hdepth, walk] at ht
      refine ⟨m, Unchanged.refl m, fun Q => ?_⟩
      rw [if_pos hpath, wp_bind, wp_pure]
      exact wp_hodoRead_some valid ht _ _
    · refine ⟨Machine.later m, unchanged_later m, fun Q => ?_⟩
      have hthere : (Machine.later m).disk.content (walk (Machine.later m).disk.content
          (Field.depth f) (inodePtr b (Field.number f)) (index - Field.start f)) ≠ none := by
        rw [later_disk, ht]
        exact Option.some_ne_none t
      rw [if_neg hpath, wp_bind, wp_kmallocUnchecked, wp_bind]
      refine (wp_followPtrs (m := Machine.later m) valid hthere).trans ?_
      simp only [later_disk]
      exact wp_hodoRead_some (m := Machine.later m) valid ht _ _

theorem wp_hodoReadNthBlock_some {b t dst : Block} {index : Nat} {Q : Block → Machine Store → Prop}
    (valid : Valid m.disk) (ht : dataAt m.disk.content b index = some t)
    (post : ∀ m', Unchanged m m' → Q t m') :
    wp (plain D clock) (hodoReadNthBlock b index dst) Q m := by
  obtain ⟨m', hm', hiff⟩ := @wp_hodoReadNthBlock_iff clock m D _ b t dst index valid ht
  exact (hiff Q).mpr (post m' hm')

end

/-- Block `o` of the file is fetched, whatever it holds. -/
def Fetched (D : Disk Store) (clock : Nat → Timespec) (s : Store) (b : Block) (o : Nat) : Prop :=
  ∀ {m : Machine Store} (dst : Block) (Q : Block → Machine Store → Prop), m.disk = s →
    (∀ t m', Unchanged m m' → Q t m') → wp (plain D clock) (hodoReadNthBlock b o dst) Q m

theorem fetched_of_there {D : Disk Store} [LikeStore D] {s : Store} {b : Block} {o : Nat}
    (valid : Valid s) (there : dataAt s.content b o ≠ none) : Fetched D clock s b o := by
  obtain ⟨t, ht⟩ := Option.ne_none_iff_exists'.mp there
  rintro m dst Q rfl post
  exact wp_hodoReadNthBlock_some valid ht (post t)

/-- A part of a block is delivered behind what came before it. -/
theorem copyTo_piece (data : List UInt8) (t : Block) (n pos k off len : Nat)
    (fits : pos + k + len ≤ data.length) (room : k + len ≤ n)
    (bytes : ∀ j, j < len → byteAt t (off + j) = data.getD (pos + k + j) 0) :
    (⟨n - k, (data.drop pos).take k⟩ : IovSink).copyTo t off len =
      ⟨n - (k + len), (data.drop pos).take (k + len)⟩ := by
  have hmin : min len (n - k) = len := by omega
  simp only [IovSink.copyTo, hmin, List.take_add, IovSink.mk.injEq]
  refine ⟨by omega, congrArg ((data.drop pos).take k ++ ·) ?_⟩
  apply List.ext_getElem
  · simp only [List.length_map, List.length_range, List.length_take, List.length_drop]
    omega
  · intro j hj hj'
    simp only [List.length_map, List.length_range] at hj
    simp only [List.getElem_map, List.getElem_range, List.getElem_take, List.getElem_drop]
    rw [bytes j hj, List.getD_eq_getElem?_getD, List.getElem?_eq_getElem (by omega),
      Option.getD_some]
    simp only [Nat.add_assoc]

/-- Of the first block the part from the position on is delivered. -/
theorem copyTo_first {data : List UInt8} {t : Block} {n pos k : Nat}
    (bytes : ∀ j, j < 4088 → 4088 * (pos / 4088) + j < data.length →
      byteAt t (8 + j) = data.getD (4088 * (pos / 4088) + j) 0)
    (fits : pos + k ≤ data.length) (room : k ≤ n) (inBlock : k + pos % 4088 ≤ 4088) :
    (⟨n, []⟩ : IovSink).copyTo t (8 + pos % 4088) k = ⟨n - k, (data.drop pos).take k⟩ := by
  have hcopy := copyTo_piece data t n pos 0 (8 + pos % 4088) k (by omega) (by omega)
    fun j hj => by
      have hplace : 4088 * (pos / 4088) + (pos % 4088 + j) = pos + 0 + j := by omega
      rw [Nat.add_assoc, bytes _ (by omega) (by omega), hplace]
  simpa only [Nat.zero_add, Nat.sub_zero, List.take_zero] using hcopy

/-- The blocks from `first` to `last` hold their part of `data`. -/
def Presents (s : Store) (b : Block) (data : List UInt8) (first last : Nat) : Prop :=
  ∀ o, first ≤ o → o ≤ last → 4088 * o < data.length →
    ∃ t, dataAt s.content b o = some t ∧ ∀ j, j < 4088 → 4088 * o + j < data.length →
      byteAt t (8 + j) = data.getD (4088 * o + j) 0

theorem Contains.presents {s : Store} {n : Nat} {b : Block} {data : List UInt8}
    (h : Contains s n b data) (first last : Nat) : Presents s b data first last := by
  intro o _ _ ho
  cases ht : dataAt s.content b o with
  | none => exact absurd ht (h.there o ho)
  | some t =>
    refine ⟨t, rfl, fun j hj hlt => ?_⟩
    have hbyte := h.bytes _ hlt
    have hdiv : (4088 * o + j) / 4088 = o := by omega
    have hmod : (4088 * o + j) % 4088 = j := by omega
    simpa only [hdiv, hmod, ht, dataByte, hodoDataStart_eq] using hbyte

section

variable {D : Disk Store} [LikeStore D]

/-- The blocks from `o` on, each of them whole. -/
theorem wp_readMiddle {b temp : Block} {data : List UInt8} (n pos k o blocks : Nat) {last : Nat}
    {iocb : Kiocb} (valid : Valid m.disk) (file : Presents m.disk b data o last)
    (hstart : pos + k = 4088 * o) (hlast : o + blocks ≤ last)
    (hend : 4088 * (o + blocks) ≤ data.length)
    (hroom : k + 4088 * blocks ≤ n) (hpos : iocb.kiPos = (pos + k : Nat)) :
    wp (plain D clock) (readMiddle b blocks o iocb ⟨n - k, (data.drop pos).take k⟩ temp)
      (fun r m' => Unchanged m m' ∧
        r.1 = { iocb with kiPos := (pos + (k + 4088 * blocks) : Nat) } ∧
        r.2.1 = ⟨n - (k + 4088 * blocks), (data.drop pos).take (k + 4088 * blocks)⟩) m := by
  induction blocks generalizing m k o iocb temp with
  | zero =>
    simp only [readMiddle, wp_pure, Nat.mul_zero, Nat.add_zero]
    refine ⟨Unchanged.refl m, ?_, trivial⟩
    rw [← hpos]
  | succ blocks ih =>
    obtain ⟨t, ht, hbytes⟩ := file o (Nat.le_refl o) (by omega) (by omega)
    have hcopy := copyTo_piece data t n pos k 8 4088 (by lia) (by lia) fun j hj =>
      (hbytes j hj (by omega)).trans (by rw [hstart])
    simp only [readMiddle, wp_bind, hodoDataStart_eq, hodoDataSize_eq]
    apply wp_hodoReadNthBlock_some valid ht
    intro m' hm'
    rw [hcopy]
    have hsum : k + 4088 + 4088 * blocks = k + 4088 * (blocks + 1) := by omega
    have rest : Presents m'.disk b data (o + 1) last := by
      rw [hm'.disk]
      exact fun o' hlo => file o' (by omega)
    apply wp_mono _ (ih (k + 4088) (o + 1) (by rw [hm'.disk]; exact valid) rest
      (by omega) (by omega) (by omega) (by omega) (by simp only [hpos]; omega))
    intro r m'' hr
    rw [hsum] at hr
    exact ⟨hm'.trans hr.1, hr.2.1, hr.2.2⟩

end

theorem u64_of_lt {n : Nat} (h : n < 2 ^ 31) : u64 (n : Int) = n :=
  u64_ofNat (by omega)

theorem toInt32_of_lt {n : Nat} (h : n < 2 ^ 31) : toInt32 n = n := by
  rw [toInt32]
  omega

/-- What is left of `len` bytes behind the position. -/
theorem u64_rest {len pos : Nat} (hle : pos ≤ len) (hlen : len < 2 ^ 64) :
    u64 ((len : Int) - (pos : Int)) = len - pos := by
  rw [← Int.natCast_sub hle]
  exact u64_ofNat (by omega)

/-- A buffer of `n` bytes against a rest that an `int` holds. -/
theorem cutLength_eq {rest n : Nat} (h : rest < 2 ^ 31) :
    (if n < u64 (toInt32 rest) then toInt32 n else toInt32 rest) = (min n rest : Nat) := by
  rw [toInt32_of_lt h, u64_of_lt h]
  split
  case isTrue hlt =>
    rw [toInt32_of_lt (Nat.lt_trans hlt h), Nat.min_eq_left (Nat.le_of_lt hlt)]
  case isFalse hge =>
    rw [Nat.min_eq_right (Nat.not_lt.mp hge)]

/-- What a reader gets of `data` for a buffer of `n` bytes at `pos`. -/
def delivered (data : List UInt8) (pos n : Nat) : List UInt8 := (data.drop pos).take n

theorem length_delivered (data : List UInt8) (pos n : Nat) :
    (delivered data pos n).length = min n (data.length - pos) := by
  rw [delivered, List.length_take, List.length_drop]

theorem delivered_min (data : List UInt8) (pos n : Nat) :
    (data.drop pos).take (min n (data.length - pos)) = delivered data pos n := by
  rw [delivered, ← List.length_drop, ← List.take_eq_take_min]

section

variable {D : Disk Store} [LikeStore D]

/-- A request that ends at the border of a block comes to the next one too. -/
theorem wp_readFile {b : Block} {data : List UInt8} {pos n : Nat} {iocb : Kiocb}
    (valid : Valid m.disk) (len : fileLen b = data.length)
    (file : Presents m.disk b data (pos / 4088) ((pos + min n (data.length - pos)) / 4088))
    (border : data.length ≤ 4088 * ((pos + min n (data.length - pos)) / 4088) →
      Fetched D clock m.disk b ((pos + min n (data.length - pos)) / 4088))
    (small : data.length < 2 ^ 31)
    (hpos : iocb.kiPos = pos) (hlt : pos < 2 ^ 63) :
    wp (plain D clock) (readFile b iocb ⟨n, []⟩)
      (fun r m' => Unchanged m m' ∧ r.1 = (delivered data pos n).length ∧
        r.2.1 = { iocb with kiPos := (pos + (delivered data pos n).length : Nat) } ∧
        r.2.2.delivered = delivered data pos n) m := by
  have hu : u64 iocb.kiPos = pos := by rw [hpos, u64_ofNat (by omega)]
  simp only [readFile, wp_ite, wp_bind, wp_pure, hu, len]
  rw [length_delivered]
  split
  case isTrue hend =>
    have hzero : data.length - pos = 0 := by omega
    simp only [hzero, Nat.min_zero, Nat.add_zero]
    refine ⟨Unchanged.refl m, rfl, ?_, ?_⟩
    · rw [← hpos]
    · rw [delivered, List.drop_eq_nil_of_le hend, List.take_nil]
  case isFalse hin =>
    rw [u64_rest (by omega) (by omega), cutLength_eq (by omega)]
    obtain ⟨len, hmin⟩ : ∃ len, min n (data.length - pos) = len := ⟨_, rfl⟩
    have hdone : (data.drop pos).take len = delivered data pos n := by
      rw [← hmin, delivered_min]
    rw [hmin] at file border
    rw [hmin, hpos, ← Int.natCast_add, u64_of_lt (show pos + len < 2 ^ 31 by omega)]
    simp only [hodoDataSize_eq, hodoDataStart_eq, wp_kmallocUnchecked]
    rw [toInt32_of_lt (show pos / 4088 < 2 ^ 31 by omega),
      toInt32_of_lt (show (pos + len) / 4088 < 2 ^ 31 by omega),
      u64_of_lt (show len < 2 ^ 31 by omega)]
    obtain ⟨t, ht, hbytes⟩ := file (pos / 4088) (Nat.le_refl _) (by omega) (by omega)
    apply wp_hodoReadNthBlock_some (m := Machine.later m) valid ht
    intro m₁ hm₁
    have hm₁ := (unchanged_later m).trans hm₁
    split
    case isTrue hsame =>
      rw [copyTo_first hbytes (by omega) (by omega) (by omega)]
      exact ⟨hm₁, trivial, trivial, hdone⟩
    case isFalse hdiffer =>
      obtain ⟨o, ho⟩ : ∃ o, (pos + len) / 4088 = o := ⟨_, rfl⟩
      obtain ⟨k, hk⟩ : ∃ k, 4088 - pos % 4088 = k := ⟨_, rfl⟩
      obtain ⟨blocks, hblocks⟩ : ∃ blocks, o - (pos / 4088 + 1) = blocks := ⟨_, rfl⟩
      have hcount : ((o : Int) - ((pos / 4088 : Nat) + 1 : Int)).toNat = blocks := by omega
      have hnext : ((pos / 4088 : Nat) : Int) + 1 = (pos / 4088 + 1 : Nat) := by omega
      have hmid : pos + (k + 4088 * blocks) = 4088 * o := by omega
      rw [ho, hk, copyTo_first hbytes (by omega) (by omega) (by omega), hcount, hnext]
      have middle : Presents m₁.disk b data (pos / 4088 + 1) ((pos + len) / 4088) := by
        rw [hm₁.disk]
        exact fun o' hlo => file o' (by omega)
      apply wp_mono _ (wp_readMiddle n pos k (pos / 4088 + 1) blocks
        (by rw [hm₁.disk]; exact valid) middle
        (by omega) (by omega) (by omega) (by omega) (by simp only; omega))
      rintro ⟨iocb', sink, temp⟩ m₂ ⟨hm₂, hiocb, hsink⟩
      simp only at hiocb hsink
      have hm₂ := hm₁.trans hm₂
      have last : ∀ t' m₃, Unchanged m m₃ →
          (∀ j, j < (pos + len) % 4088 → byteAt t' (8 + j) = data.getD (4088 * o + j) 0) →
          Unchanged m m₃ ∧ True ∧
            { iocb' with kiPos := iocb'.kiPos + ((pos + len) % 4088 : Nat) } =
              { iocb with kiPos := (pos + len : Nat) } ∧
            (sink.copyTo t' 8 ((pos + len) % 4088)).delivered = delivered data pos n := by
        intro t' m₃ hm₃ hlast
        have hcopy := copyTo_piece data t' n pos (k + 4088 * blocks) 8 ((pos + len) % 4088)
          (by omega) (by omega) fun j hj => (hlast j hj).trans (by rw [hmid])
        have hall : k + 4088 * blocks + (pos + len) % 4088 = len := by omega
        rw [hsink, hcopy, hall, hiocb]
        refine ⟨hm₃, trivial, ?_, hdone⟩
        simp only [Kiocb.mk.injEq, true_and]
        omega
      rw [if_pos (show ((pos / 4088 : Nat) : Int) < o by omega)]
      by_cases hbeyond : data.length ≤ 4088 * o
      · rw [ho] at border
        apply border hbeyond _ _ hm₂.disk
        intro t' m₃ hm₃
        exact last t' m₃ (hm₂.trans hm₃) fun j hj => by omega
      · obtain ⟨t', ht', hbytes'⟩ := file o (by omega) (by omega) (by omega)
        apply wp_hodoReadNthBlock_some (by rw [hm₂.disk]; exact valid) (by rw [hm₂.disk]; exact ht')
        intro m₃ hm₃
        exact last t' m₃ (hm₂.trans hm₃) fun j hj => hbytes' j (by omega) (by omega)

end

/-- A command that takes neither a number nor room in the log. -/
def Passive : Cmd → Prop
  | .next => False
  | .write _ _ => False
  | _ => True

theorem fits_of_passive (m : Machine Volume) (c : Cmd) (h : Passive c) : Fits m c := by
  cases c with
  | next => exact h.elim
  | write buf n => exact h.elim
  | _ => trivial

theorem passive_hodoRead (n : Nat) (buf : Block) : (hodoRead n buf).Only Passive :=
  only_bind (only_cmd trivial) fun _ => only_pure _ _

theorem passive_kmallocUnchecked : kmallocUnchecked.Only Passive := by
  apply only_bind (only_cmd trivial)
  intro b
  cases b with
  | none => exact .crash
  | some b => exact only_pure _ _

theorem passive_followPtrs (path : List Nat) (p : Nat) (temp : Block) :
    (followPtrs path p temp).Only Passive := by
  induction path generalizing p temp with
  | nil => exact only_pure _ _
  | cons i path ih => exact only_bind (passive_hodoRead p temp) fun b => ih (blockPtr b i) b

theorem passive_hodoReadNthBlock (inode : Block) (n : Int) (dst : Block) :
    (hodoReadNthBlock inode n dst).Only Passive := by
  apply only_ite .crash
  apply only_ite
  · exact only_bind (only_pure _ _) fun p => passive_hodoRead p dst
  · apply only_bind (p := kmallocUnchecked) passive_kmallocUnchecked
    exact fun temp => only_bind (passive_followPtrs _ _ temp) fun p => passive_hodoRead p dst

theorem passive_readMiddle (inode : Block) (blocks : Nat) (cur : Int) (iocb : Kiocb)
    (iter : IovSink) (temp : Block) :
    (readMiddle inode blocks cur iocb iter temp).Only Passive := by
  induction blocks generalizing cur iocb iter temp with
  | zero => exact only_pure _ _
  | succ blocks ih => exact only_bind (passive_hodoReadNthBlock _ _ _) fun temp => ih _ _ _ temp

theorem passive_readFile (inode : Block) (iocb : Kiocb) (iter : IovSink) :
    (readFile inode iocb iter).Only Passive := by
  simp only [readFile]
  refine only_ite (only_pure _ _) ?_
  refine only_bind (p := kmallocUnchecked) passive_kmallocUnchecked fun temp => ?_
  refine only_bind (passive_hodoReadNthBlock _ _ _) fun temp => ?_
  refine only_ite (only_pure _ _) ?_
  refine only_bind (passive_readMiddle _ _ _ _ _ _) fun r => ?_
  exact only_ite (only_bind (passive_hodoReadNthBlock _ _ _) fun _ => only_pure _ _) (only_pure _ _)

/-- What `hodo_file_read_iter` does with a file of the file system itself. -/
def readStored (n : Nat) (iocb : Kiocb) (iter : IovSink) : Program (Int × Kiocb × IovSink) := do
  let inode ← hodoRead n zeros
  readFile inode iocb iter

theorem passive_readStored (n : Nat) (iocb : Kiocb) (iter : IovSink) :
    (readStored n iocb iter).Only Passive :=
  only_bind (passive_hodoRead n zeros) fun inode => passive_readFile inode iocb iter

theorem wp_readStored {D : Disk Store} [LikeStore D] {b : Block} {data : List UInt8}
    {size pos n : Nat} {iocb : Kiocb} (valid : Valid m.disk) (file : Contains m.disk size b data)
    (border : data.length ≤ 4088 * ((pos + min n (data.length - pos)) / 4088) →
      Fetched D clock m.disk b ((pos + min n (data.length - pos)) / 4088))
    (small : data.length < 2 ^ 31) (hpos : iocb.kiPos = pos) (hlt : pos < 2 ^ 63) :
    wp (plain D clock) (readStored size iocb ⟨n, []⟩)
      (fun r m' => Unchanged m m' ∧ r.1 = (delivered data pos n).length ∧
        r.2.1 = { iocb with kiPos := (pos + (delivered data pos n).length : Nat) } ∧
        r.2.2.delivered = delivered data pos n) m := by
  rw [readStored, wp_bind]
  apply (wp_hodoRead_some valid file.inode _ _).mpr
  exact wp_readFile valid file.len (file.presents _ _) border small hpos hlt

theorem exec_hodoFileReadIter {σ : Type} {D : Disk σ} {E : Env}
    (zonefs : Kiocb → IovSink → Program (Int × Kiocb × IovSink)) {m : Machine σ} {iocb : Kiocb}
    (own : D.startingNumber m.disk ≤ (m.inodes iocb.inode).iIno % 2 ^ 32) (iter : IovSink) :
    exec (machine D E) (hodoFileReadIter zonefs iocb iter) m =
      exec (machine D E) (readStored ((m.inodes iocb.inode).iIno % 2 ^ 32) iocb iter) m := by
  rw [hodoFileReadIter]
  change exec (machine D E) (if (m.inodes iocb.inode).iIno % 2 ^ 32 < D.startingNumber m.disk
    then zonefs iocb iter else _) m = _
  rw [if_neg (Nat.not_lt.mpr own)]
  rfl

theorem guarded_hodoFileReadIter {σ : Type} {D : Disk σ} {E : Env} {P : Machine σ → Cmd → Prop}
    (zonefs : Kiocb → IovSink → Program (Int × Kiocb × IovSink)) {m : Machine σ} {iocb : Kiocb}
    (own : D.startingNumber m.disk ≤ (m.inodes iocb.inode).iIno % 2 ^ 32) (iter : IovSink)
    (inode : P m (.inode iocb.inode)) (starting : P m .startingNumber) :
    Guarded (machine D E) P (hodoFileReadIter zonefs iocb iter) m ↔
      Guarded (machine D E) P (readStored ((m.inodes iocb.inode).iIno % 2 ^ 32) iocb iter) m := by
  rw [hodoFileReadIter]
  refine (guarded_call rfl).trans ((and_iff_right inode).trans ?_)
  refine (guarded_call rfl).trans ((and_iff_right starting).trans ?_)
  change Guarded (machine D E) P (if (m.inodes iocb.inode).iIno % 2 ^ 32 < D.startingNumber m.disk
    then zonefs iocb iter else _) m ↔ _
  rw [if_neg (Nat.not_lt.mpr own)]
  rfl

end FileReads
