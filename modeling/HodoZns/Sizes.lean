import HodoZns.Appends
import HodoZns.Lookups

/-!
# Two sizes of a file

The size of a file is kept twice: `file_len` in the stored inode and `i_size` in the
VFS inode. A write sets both; a lookup and `hodo_sub_setattr` only see to one of them.
-/

namespace Sizes

open ByteBlock Layout BlockLog ZoneLog CallRuns LogStore Programs Kernel StoreMachine VolumeMachine
  FileBlocks
open BlockForest BlockFields TreeWrites FileWrites Directories Operations DirectoryWrites NewInodes
open FsRuns FileContents Ownership Erasures DirectoryBlocks DirectoryMaps Trees TreeCalls SystemRuns
  TreeRuns Appends Lookups

/-- `lookup` gives up the inode of the dentry, as the VFS does with a dentry that it drops,
before the name is looked up again. -/
inductive SizeCall where
  | create (cred : Cred) (dir : Nat) (name : List UInt8) (mode : Nat)
  | lookup (dir : Nat) (dentry : Dentry)
  | write (iocb : Kiocb) (iter : IovIter)
  | setattr (prepared : Int) (inode : Nat) (attr : Iattr)

section

variable (zonefs : Kiocb → IovIter → Program (Int × Kiocb × IovIter))

def SizeCall.program : SizeCall → Program Int
  | .create cred dir name mode => do
    let (ret, _) ← hodoCreate cred dir name mode
    pure ret
  | .lookup dir dentry => do
    setInode dentry.inode VfsInode.unused
    let _ ← hodoSubLookup dir dentry.name
    pure 0
  | .write iocb iter => do
    let (ret, _, _) ← hodoFileWriteIter zonefs iocb iter
    pure ret
  | .setattr prepared inode attr => hodoSubSetattr prepared inode attr

def sizeStep {σ : Type} (D : Disk σ) (E : Env) (m : Machine σ) (c : SizeCall) :
    Option (Int × Machine σ) :=
  match exec (machine D E) (SizeCall.program zonefs c) m with
  | .done r => some r
  | _ => none

end

/-- The type of the inode that is stored under `n`, if there is one. -/
def storedType (c : Nat → Option Block) (n : Nat) : Option UInt8 :=
  (c n).bind fun b => if isDat b then none else some (fileType b)

/-- A VFS inode through which a regular file can be read and written. -/
def OfFile (c : Nat → Option Block) (i : VfsInode) : Prop :=
  i.iFop = some .file ∧ storedType c i.iIno = some hodoTypeReg

/-- Every regular file that has a VFS inode has the size there that it has in the log. -/
def SizesAgree (c : Nat → Option Block) (inodes : Nat → VfsInode) : Prop :=
  ∀ r, OfFile c (inodes r) → (inodes r).iSize = storedLen c (inodes r).iIno

instance (c : Nat → Option Block) (i : VfsInode) : Decidable (OfFile c i) :=
  inferInstanceAs (Decidable (_ ∧ _))

theorem storedType_eq_some {c : Nat → Option Block} {n : Nat} {t : UInt8} :
    storedType c n = some t ↔ InodeAt c n t := by
  rw [storedType, Option.bind_eq_some_iff]
  refine exists_congr fun b => and_congr_right fun _ => ?_
  cases isDat b <;> simp

/-- A dentry that goes with an entry of a directory is dropped and looked up. -/
def SizeCall.Called (zonefs : Kiocb → IovIter → Program (Int × Kiocb × IovIter))
    (clock : Nat → Timespec) (m : Machine Volume) : SizeCall → Prop
  | .create _ dir name _ => Vacant (onDisk m.disk) m.inodes dir name ∧
      storedType (onDisk m.disk) (m.inodes dir).iIno = some hodoTypeDir
  | .lookup dir dentry => Linked (onDisk m.disk) m.inodes dir dentry ∧ dentry.inode ≠ dir ∧
      (m.inodes dentry.inode).iFop ≠ none ∧
      storedType (onDisk m.disk) (m.inodes dir).iIno = some hodoTypeDir
  | .write iocb iter => OfFile (onDisk m.disk) (m.inodes iocb.inode) ∧
      (0 ≤ iocb.kiPos ∧ iocb.kiPos < 2 ^ 63) ∧
      ∀ r, exec (machine volumeDisk (zeroFilled clock)) (hodoFileWriteIter zonefs iocb iter) m =
        .done r → 0 ≤ r.1.1
  | .setattr _ _ _ => True

/-- The call leaves the two sizes of each file equal, as can be seen before it is made. -/
def SizeCall.KeepsSize (c : Nat → Option Block) (inodes : Nat → VfsInode) : SizeCall → Prop
  | .lookup _ dentry => storedType c (inodes dentry.inode).iIno = some hodoTypeReg →
      storedLen c (inodes dentry.inode).iIno = 0
  | .setattr prepared inode attr => (prepared ≠ 0 ∧ inode ≠ rootRef) ∨
      ∀ size ∈ attr.size, OfFile c (inodes inode) → size = storedLen c (inodes inode).iIno
  | _ => True

/-- The call is one the VFS makes, a write ends well, and numbers and room do not run out. -/
def Admits (zonefs : Kiocb → IovIter → Program (Int × Kiocb × IovIter)) (clock : Nat → Timespec)
    (m : Machine Volume) (c : SizeCall) : Prop :=
  SizeCall.Called zonefs clock m c ∧
    Guarded (machine volumeDisk (zeroFilled clock)) Fits (SizeCall.program zonefs c) m

section

variable (zonefs : Kiocb → IovIter → Program (Int × Kiocb × IovIter)) (clock : Nat → Timespec)

instance (m : Machine Volume) : (c : SizeCall) → Decidable (SizeCall.Called zonefs clock m c)
  | .create _ _ _ _ => inferInstanceAs (Decidable (Vacant _ _ _ _ ∧ _))
  | .lookup _ _ => inferInstanceAs (Decidable (Linked _ _ _ _ ∧ _ ∧ _ ∧ _))
  | .write iocb iter => inferInstanceAs (Decidable (OfFile _ _ ∧ (_ ∧ _) ∧
      ∀ r, exec (machine volumeDisk (zeroFilled clock)) (hodoFileWriteIter zonefs iocb iter) m =
        .done r → 0 ≤ r.1.1))
  | .setattr _ _ _ => isTrue trivial

instance (c : Nat → Option Block) (inodes : Nat → VfsInode) : (call : SizeCall) →
    Decidable (SizeCall.KeepsSize c inodes call)
  | .create _ _ _ _ | .write _ _ => isTrue trivial
  | .lookup _ _ => inferInstanceAs (Decidable (_ → _))
  | .setattr _ inode attr => inferInstanceAs (Decidable (_ ∨
      ∀ size ∈ attr.size, OfFile c (inodes inode) → size = storedLen c (inodes inode).iIno))

instance (m : Machine Volume) (c : SizeCall) : Decidable (Admits zonefs clock m c) :=
  inferInstanceAs (Decidable (_ ∧ Guarded _ _ _ _))

end

section Writes

variable {D : Disk Store} [LikeStore D] {clock : Nat → Timespec} {m : Machine Store}

/-- The position of a request, as the type of `ki_pos` and of `i_size` allows it. -/
theorem positioned_bounds {iocb : Kiocb} (hpos : 0 ≤ iocb.kiPos ∧ iocb.kiPos < 2 ^ 64) {b : Block}
    (agree : (m.inodes iocb.inode).iSize = fileLen b) :
    0 ≤ (positioned m iocb).kiPos ∧ (positioned m iocb).kiPos < 2 ^ 64 := by
  have hlen : fileLen b < 2 ^ 64 := getLE_lt b 8 8
  simp only [positioned]
  split
  · simp only [agree]
    omega
  · exact hpos

/-- What a block that was written ends at, it is in both sizes. -/
theorem written_end {iocb : Kiocb} (iter : IovIter) {f : Field}
    (hf : fieldOf (dataBlockIndex iocb) = some f) (hpos : 0 ≤ iocb.kiPos ∧ iocb.kiPos < 2 ^ 64) :
    iocb.kiPos + pieceLen iocb iter = (u64 (iocb.kiPos + pieceLen iocb iter) : Nat) ∧
      0 ≤ iocb.kiPos + pieceLen iocb iter ∧ iocb.kiPos + pieceLen iocb iter < 2 ^ 64 := by
  have hindex : dataBlockIndex iocb < blocksPerFile := by
    by_contra hge
    rw [fieldOf_eq_none.mpr (Nat.not_lt.mp hge)] at hf
    cases hf
  have hpiece : pieceLen iocb iter ≤ 4088 := by
    simp only [pieceLen, hodoDataSize_eq]
    omega
  obtain ⟨k, hk⟩ := Int.eq_ofNat_of_zero_le hpos.1
  rw [dataBlockIndex, hk, u64_ofNat (by omega), hodoDataSize_eq, blocksPerFile_eq] at hindex
  rw [hk]
  have hu : u64 ((k : Int) + (pieceLen iocb iter : Int)) = k + pieceLen iocb iter := by
    rw [← Int.natCast_add]
    exact u64_ofNat (by omega)
  rw [hu]
  omega

theorem wp_write_sizes {iocb : Kiocb} {iter : IovIter} {n : Nat} {b : Block}
    (hino : (m.inodes iocb.inode).iIno % 2 ^ 32 = n) (valid : Valid m.disk)
    (forest : IsForest m.disk.content) (hn : m.disk.content n = some b) (hb : isDat b = false)
    (hpos : 0 ≤ iocb.kiPos ∧ iocb.kiPos < 2 ^ 64)
    (agree : (m.inodes iocb.inode).iSize = fileLen b) :
    wp (plain D clock) (hodoSubFileWriteIter iocb iter)
      (fun r m' => 0 ≤ r.1 → (∃ b', FileWritten m.disk m'.disk n b b' ∧
        (m'.inodes iocb.inode).iSize = fileLen b') ∧ OnlySize m m' iocb.inode) m := by
  apply wp_writeBlocks (fun total iocb' iter' m' => total + iter'.count = iter.count ∧
      iocb'.inode = iocb.inode ∧ (0 ≤ iocb'.kiPos ∧ iocb'.kiPos < 2 ^ 64) ∧
      (∃ b', FileWritten m.disk m'.disk n b b' ∧ (m'.inodes iocb.inode).iSize = fileLen b') ∧
      OnlySize m m' iocb.inode)
  · rintro total _ _ _ ⟨hcount, _⟩
    omega
  · rintro total iocb' iter' m' ⟨hcount, hinode, hpos', ⟨b', hwritten, hsize⟩, honly⟩ hlt
    have hino' : (m'.inodes iocb'.inode).iIno % 2 ^ 32 = n := by
      rw [hinode, honly.iIno]
      exact hino
    apply wp_mono _ (wp_writeOneBlock hino' (by omega) hwritten.valid hwritten.forest
      hwritten.inode hwritten.isInode)
    intro r m'' hr
    have hbounds := positioned_bounds hpos' (hinode ▸ hsize)
    cases hr with
    | tooBig =>
      rw [if_pos (show eFBig < 0 by decide)]
      exact fun hr => absurd (show 0 ≤ eFBig from hr) (by decide)
    | fault =>
      rw [if_pos (show eFault < 0 by decide)]
      exact fun hr => absurd (show 0 ≤ eFault from hr) (by decide)
    | written hf _ hpiece hlen hresized =>
      have hle := pieceLen_le (positioned m' iocb') iter'
      have hgoes := pieceLen_pos (positioned m' iocb') (show 0 < iter'.count by omega)
      obtain ⟨hend, hbounds'⟩ := written_end iter' hf hbounds
      rw [positioned_inode, hinode] at hresized
      rw [if_neg (by simp)]
      refine ⟨by simpa using hgoes, ?_, (positioned_inode m' iocb').trans hinode, hbounds',
        ⟨_, hwritten.trans hpiece.toFileWritten, ?_⟩, honly.trans ⟨_, hresized⟩⟩
      · simp only [IovIter.advance, IovIter.count, List.length_drop, Int.toNat_natCast] at hcount ⊢
        omega
      · rw [hresized.inodes, update_same, hlen]
        exact hend
  · rintro _ _ _ ⟨_, _, _, hsize, honly⟩
    exact fun _ => ⟨hsize, honly⟩
  · omega
  · exact ⟨by omega, rfl, hpos, ⟨b, FileWritten.refl valid forest hn hb, agree⟩,
      OnlySize.of_same (SameInodes.refl m) _⟩

end Writes

section Names

variable {D : Disk Store} [LikeStore D] {clock : Nat → Timespec} {m : Machine Store} {T : Tree}
  {dir d : Nat}

/-- The regular files are those there were and the new one, which is empty. -/
theorem wp_storeNewInode_files {cred : Cred} {name : List UInt8} {mode : Nat} {now : Timespec}
    (hname : name.length ≤ 16) (tree : DiskTree m.disk T) (hd : (m.inodes dir).iIno % 2 ^ 32 = d)
    (hdir : InodeAt m.disk.content d hodoTypeDir) :
    wp (plain D clock) (storeNewInode regularFile cred dir name mode now)
      (fun n m' => storedLen m'.disk.content n = 0 ∧ ∀ x b, m'.disk.content x = some b →
        isDat b = false → fileType b = hodoTypeReg → x ≠ n → m.disk.content x = some b) m := by
  obtain ⟨b, hb, hdat, htype⟩ := hdir
  apply wp_mono _ (wp_storeNewInode hname hd tree.valid tree.forest hb hdat)
  rintro n m' ⟨m₁, _, hnone, hcontent, valid₁, forest₁, _, _, hb₁, hadd⟩
  have hnew : m₁.disk.content n = some (storedInode zeros regularFile cred name mode n now) := by
    rw [hcontent, update_same]
  have hlen : fileLen (storedInode zeros regularFile cred name mode n now) = 0 :=
    fileLen_storedInode zeros (Nat.zero_lt_of_lt Nat.lt_two_pow_self)
  have hne : n ≠ d := by
    rintro rfl
    rw [hnone] at hb
    cases hb
  have old : ∀ x c, m₁.disk.content x = some c → x ≠ n → m.disk.content x = some c := by
    intro x c hx hxn
    rwa [hcontent, update_other _ _ hxn] at hx
  have written : ∀ b', FileWritten m₁.disk m'.disk d b b' →
      storedLen m'.disk.content n = 0 ∧ ∀ x c, m'.disk.content x = some c → isDat c = false →
        fileType c = hodoTypeReg → x ≠ n → m.disk.content x = some c := by
    intro b' hw
    refine ⟨?_, fun x c hx hc hreg hxn => ?_⟩
    · rw [storedLen_eq (other_inode hw forest₁ hnew (isDat_storedInode zeros) hne), hlen]
    · have hxd : x ≠ d := by
        rintro rfl
        obtain rfl := Option.some.inj (hw.inode.symm.trans hx)
        rw [fileType_of_fields hw.fields, htype] at hreg
        exact absurd hreg (by decide)
      exact old x c (hw.inodes x c hx hc hxd) hxn
  cases hadd with
  | full _ hdisk _ =>
    rw [hdisk]
    exact ⟨by rw [storedLen_eq hnew, hlen], fun x c hx _ _ hxn => old x c hx hxn⟩
  | slot _ _ _ _ _ hw => exact written _ hw.toFileWritten
  | block _ _ _ _ hw => exact written _ hw.toFileWritten

/-- The name of an entry is found, and a new VFS inode set up for the stored one. -/
theorem wp_hodoSubLookup {e : Entry} {c : Block} {name : List UInt8} (tree : DiskTree m.disk T)
    (root : (m.inodes rootRef).iIno = m.disk.base)
    (hdir : InodeAt m.disk.content (m.inodes dir).iIno hodoTypeDir)
    (he : e ∈ T (m.inodes dir).iIno) (hname : e.name.bytes = name)
    (hc : m.disk.content e.iIno = some c) :
    wp (plain D clock) (hodoSubLookup dir name) (fun r m' => r = some m.inodeCount ∧
      m'.disk = m.disk ∧ m'.inodeCount = m.inodeCount + 1 ∧ ∃ now, m'.inodes = update
        (update m.inodes dir ((m.inodes dir).setTimes now)) m.inodeCount
        (VfsInode.lookedUp newInode c)) m := by
  obtain ⟨b, ds, h, hds⟩ := tree.dirs hdir
  have hmod : (m.inodes dir).iIno % 2 ^ 32 = (m.inodes dir).iIno :=
    Nat.mod_eq_of_lt (tree.valid.number_lt (tree.valid.used h.inode))
  have hmem : e ∈ ds.flatten := List.mem_toFinset.mp (hds ▸ he)
  have harg : nameArg name = e.name.arg := by rw [FileName.arg, hname]
  have hnumber : e.iIno % 2 ^ 32 = e.iIno :=
    Nat.mod_eq_of_lt (tree.valid.number_lt (tree.valid.used hc))
  rw [hodoSubLookup_eq, harg, wp_bind]
  apply wp_mono _ (wp_lookupParent tree.valid root hmod h.inode)
  rintro _ m₁ ⟨rfl, rfl⟩
  rw [wp_bind]
  apply wp_mono _ (wp_findInodeNumber (m := Machine.later (Machine.updateInode (Machine.later m) dir
    fun i => i.setTimes (clock m.tick))) tree.valid tree.forest h e.name)
  rintro _ m₂ ⟨rfl, hm₂⟩
  have hdisk : m₂.disk = m.disk := by
    rw [hm₂]
    rfl
  have hinodes : m₂.inodes = update m.inodes dir ((m.inodes dir).setTimes (clock m.tick)) := by
    rw [hm₂]
    rfl
  have hcount : m₂.inodeCount = m.inodeCount := by
    rw [hm₂]
    rfl
  rw [numberOf_of_mem h.unique hmem, if_neg (Nat.ne_of_gt e.iIno_pos : e.iIno ≠ nothingFound),
    hnumber, wp_bind]
  apply (wp_hodoRead_some (m := m₂) (hdisk ▸ tree.valid) (hdisk ▸ hc) _ _).mpr
  simp only [wp_bind, wp_allocInode, wp_setInode, wp_pure]
  refine ⟨congrArg some hcount, hdisk, congrArg (· + 1) hcount, clock m.tick, ?_⟩
  rw [updateInode_inodes, withInode_inodes, hcount, hinodes, update_same]
  funext r
  by_cases hr : r = m.inodeCount
  · rw [hr, update_same, update_same]
  · rw [update_other _ _ hr, update_other _ _ hr, update_other _ _ hr]

end Names

/-- Every VFS inode with file operations goes with a stored inode, and no two of them with one. -/
structure VfsFiles (c : Nat → Option Block) (inodes : Nat → VfsInode) (count : Nat) : Prop where
  stored : ∀ r, (inodes r).iFop ≠ none → ∃ t, InodeAt c (inodes r).iIno t
  spare : ∀ r, count ≤ r → (inodes r).iOp = none ∧ (inodes r).iFop = none
  apart : ∀ r r', (inodes r).iFop ≠ none → (inodes r').iFop ≠ none →
    (inodes r).iIno = (inodes r').iIno → r = r'
  root : (inodes rootRef).iIno = 16
  rootUsed : rootRef < count

/-- The state after a call, and what it takes for the sizes to agree in it. -/
structure Leads (kept : Prop) (a : Machine Store) : Prop where
  tree : ∃ T, DiskTree a.disk T
  vfs : VfsFiles a.disk.content a.inodes a.inodeCount
  agree_iff : SizesAgree a.disk.content a.inodes ↔ kept

section States

variable {c c' : Nat → Option Block} {inodes inodes' : Nat → VfsInode} {count n : Nat}

/-- Where only one VFS inode is new or changed, it alone matters. -/
theorem sizesAgree_iff (ref : Nat) (agree : SizesAgree c inodes)
    (same : ∀ r, r ≠ ref → OfFile c' (inodes' r) → OfFile c (inodes r) ∧
      (inodes' r).iIno = (inodes r).iIno ∧ (inodes' r).iSize = (inodes r).iSize ∧
      storedLen c' (inodes r).iIno = storedLen c (inodes r).iIno) :
    SizesAgree c' inodes' ↔
      (OfFile c' (inodes' ref) → (inodes' ref).iSize = storedLen c' (inodes' ref).iIno) := by
  constructor
  · exact fun h => h ref
  · intro href r hr
    by_cases heq : r = ref
    · rw [heq] at hr ⊢
      exact href hr
    · obtain ⟨hold, hino, hsize, hlen⟩ := same r heq hr
      rw [hsize, hino, hlen]
      exact agree r hold

theorem VfsFiles.changed (h : VfsFiles c inodes count)
    (number : ∀ r, (inodes' r).iIno = (inodes r).iIno)
    (operations : ∀ r, (inodes' r).iOp = (inodes r).iOp ∧ (inodes' r).iFop = (inodes r).iFop ∨
      (inodes' r).iOp = none ∧ (inodes' r).iFop = none)
    (keeps : ∀ n t, InodeAt c n t → InodeAt c' n t) : VfsFiles c' inodes' count := by
  have old : ∀ r, (inodes' r).iFop ≠ none → (inodes r).iFop ≠ none := by
    intro r hr
    rcases operations r with ⟨_, hsame⟩ | ⟨_, hnone⟩
    · rwa [hsame] at hr
    · exact absurd hnone hr
  constructor
  case stored =>
    intro r hr
    obtain ⟨t, hat⟩ := h.stored r (old r hr)
    exact ⟨t, by rw [number]; exact keeps _ t hat⟩
  case spare =>
    intro r hr
    rcases operations r with ⟨hop, hfop⟩ | hnone
    · rw [hop, hfop]
      exact h.spare r hr
    · exact hnone
  case apart =>
    intro r r' hr hr' heq
    rw [number, number] at heq
    exact h.apart r r' (old r hr) (old r' hr') heq
  case root => exact (number rootRef).trans h.root
  case rootUsed => exact h.rootUsed

/-- A VFS inode was set up under a new reference, for a number that had none. -/
theorem VfsFiles.made (h : VfsFiles c inodes count) {t : UInt8} (there : InodeAt c' n t)
    (fresh : ∀ r, (inodes r).iFop ≠ none → (inodes r).iIno ≠ n)
    (number : (inodes' count).iIno = n)
    (same : ∀ r, r ≠ count → (inodes' r).iIno = (inodes r).iIno ∧
      (inodes' r).iOp = (inodes r).iOp ∧ (inodes' r).iFop = (inodes r).iFop)
    (keeps : ∀ n t, InodeAt c n t → InodeAt c' n t) : VfsFiles c' inodes' (count + 1) := by
  have old : ∀ r, r ≠ count → (inodes' r).iFop ≠ none → (inodes r).iFop ≠ none := by
    intro r hr hfop
    rwa [(same r hr).2.2] at hfop
  constructor
  case stored =>
    intro r hr
    by_cases heq : r = count
    · exact ⟨t, by rw [heq, number]; exact there⟩
    · obtain ⟨t, hat⟩ := h.stored r (old r heq hr)
      exact ⟨t, by rw [(same r heq).1]; exact keeps _ t hat⟩
  case spare =>
    intro r hr
    have hne : r ≠ count := by omega
    rw [(same r hne).2.1, (same r hne).2.2]
    exact h.spare r (by omega)
  case apart =>
    intro r r' hr hr' heq
    by_cases hrc : r = count
    · by_cases hrc' : r' = count
      · rw [hrc, hrc']
      · rw [hrc, number, (same r' hrc').1] at heq
        exact absurd heq.symm (fresh r' (old r' hrc' hr'))
    · by_cases hrc' : r' = count
      · rw [hrc', number, (same r hrc).1] at heq
        exact absurd heq (fresh r (old r hrc hr))
      · rw [(same r hrc).1, (same r' hrc').1] at heq
        exact h.apart r r' (old r hrc hr) (old r' hrc' hr') heq
  case root =>
    rw [(same rootRef (Nat.ne_of_lt h.rootUsed)).1]
    exact h.root
  case rootUsed => exact Nat.lt_succ_of_lt h.rootUsed

end States

section Calls

variable {D : Disk Store} {clock : Nat → Timespec} {a : Machine Store} {T : Tree}
  {dir : Nat} {zonefs : Kiocb → IovIter → Program (Int × Kiocb × IovIter)}

theorem ofFile_of_ino {c : Nat → Option Block} {i j : VfsInode} (hino : i.iIno = j.iIno)
    (hfop : i.iFop = j.iFop) (h : OfFile c i) : OfFile c j := by
  rwa [OfFile, hino, hfop] at h

/-- A regular file that is as it was. -/
theorem ofFile_of_content {c c' : Nat → Option Block} {i : VfsInode}
    (content : ∀ b, c' i.iIno = some b → isDat b = false → fileType b = hodoTypeReg →
      c i.iIno = some b) (h : OfFile c' i) :
    OfFile c i ∧ storedLen c' i.iIno = storedLen c i.iIno := by
  obtain ⟨hfop, htype⟩ := h
  obtain ⟨b, hb, hdat, hreg⟩ := storedType_eq_some.mp htype
  have hold := content b hb hdat hreg
  exact ⟨⟨hfop, storedType_eq_some.mpr ⟨b, hold, hdat, hreg⟩⟩,
    by rw [storedLen_eq hb, storedLen_eq hold]⟩

/-- No VFS inode has the number of an inode that was not there. -/
theorem VfsFiles.fresh {c : Nat → Option Block} {inodes : Nat → VfsInode} {count n : Nat}
    (vfs : VfsFiles c inodes count) (hn : c n = none) :
    ∀ r, (inodes r).iFop ≠ none → (inodes r).iIno ≠ n := by
  rintro r hr rfl
  obtain ⟨_, b, hb, _⟩ := vfs.stored r hr
  rw [hn] at hb
  cases hb

/-- What `hodo_sub_setattr` does unless it is refused: the size of the VFS inode is set. -/
structure Attributed (a : Machine Store) (ref : Nat) (size : Option Int) (a' : Machine Store) :
    Prop where
  disk : a'.disk = a.disk
  count : a'.inodeCount = a.inodeCount
  others : ∀ r, r ≠ ref → a'.inodes r = a.inodes r
  number : (a'.inodes ref).iIno = (a.inodes ref).iIno
  operations : (a'.inodes ref).iOp = (a.inodes ref).iOp ∧ (a'.inodes ref).iFop = (a.inodes ref).iFop
  size : (a'.inodes ref).iSize = size.getD (a.inodes ref).iSize

theorem wp_hodoSubSetattr {prepared : Int} {ref : Nat} {attr : Iattr}
    (accepted : ¬ (prepared ≠ 0 ∧ ref ≠ rootRef)) :
    wp (plain D clock) (hodoSubSetattr prepared ref attr)
      (fun _ a' => Attributed a ref attr.size a') a := by
  rw [hodoSubSetattr, if_neg accepted]
  cases attr.size with
  | none =>
    simp only [wp_bind, wp_setInode, wp_pure]
    constructor
    case others => exact fun r hr => by rw [updateInode_inodes, update_other _ _ hr]
    case number => rw [updateInode_inodes, update_same]; rfl
    case operations => rw [updateInode_inodes, update_same]; exact ⟨rfl, rfl⟩
    case size => rw [updateInode_inodes, update_same]; rfl
    all_goals rfl
  | some size =>
    simp only [wp_bind, wp_setInode, wp_pure]
    constructor
    case others =>
      intro r hr
      rw [updateInode_inodes, update_other _ _ hr, updateInode_inodes, update_other _ _ hr]
    case number =>
      rw [updateInode_inodes, update_same, updateInode_inodes, update_same]
      rfl
    case operations =>
      rw [updateInode_inodes, update_same, updateInode_inodes, update_same]
      exact ⟨rfl, rfl⟩
    case size =>
      rw [updateInode_inodes, update_same, updateInode_inodes, update_same]
      rfl
    all_goals rfl

theorem leads_of_attributed {ref : Nat} {size : Option Int} {a' : Machine Store}
    (tree : DiskTree a.disk T) (vfs : VfsFiles a.disk.content a.inodes a.inodeCount)
    (agree : SizesAgree a.disk.content a.inodes) (h : Attributed a ref size a') :
    Leads (∀ k ∈ size, OfFile a.disk.content (a.inodes ref) →
      k = storedLen a.disk.content (a.inodes ref).iIno) a' := by
  constructor
  case tree => exact ⟨T, h.disk ▸ tree⟩
  case vfs =>
    rw [h.count, h.disk]
    refine vfs.changed (fun r => ?_) (fun r => Or.inl ?_) fun _ _ hat => hat
    · by_cases hr : r = ref
      · rw [hr, h.number]
      · rw [h.others r hr]
    · by_cases hr : r = ref
      · rw [hr]
        exact h.operations
      · rw [h.others r hr]
        exact ⟨rfl, rfl⟩
  case agree_iff =>
    rw [h.disk, sizesAgree_iff ref agree, h.number, h.size]
    · constructor
      · intro heq k hk hfile
        rw [Option.mem_def.mp hk] at heq
        exact heq (ofFile_of_ino h.number.symm h.operations.2.symm hfile)
      · intro hkept hfile
        have hfile' := ofFile_of_ino h.number h.operations.2 hfile
        cases size with
        | none => exact agree ref hfile'
        | some k => exact hkept k rfl hfile'
    · intro r hr hfile
      rw [h.others r hr] at hfile ⊢
      exact ⟨hfile, rfl, rfl, rfl⟩

theorem wp_setattr_leads {prepared : Int} {ref : Nat} {attr : Iattr} (tree : DiskTree a.disk T)
    (vfs : VfsFiles a.disk.content a.inodes a.inodeCount)
    (agree : SizesAgree a.disk.content a.inodes) :
    wp (plain D clock) (hodoSubSetattr prepared ref attr) (fun _ a' =>
      Leads (SizeCall.KeepsSize a.disk.content a.inodes (.setattr prepared ref attr)) a') a := by
  by_cases refused : prepared ≠ 0 ∧ ref ≠ rootRef
  · rw [hodoSubSetattr, if_pos refused, wp_pure]
    exact ⟨⟨T, tree⟩, vfs, iff_of_true agree (Or.inl refused)⟩
  · apply wp_mono _ (wp_hodoSubSetattr refused)
    intro _ a' h
    obtain ⟨htree, hvfs, hagree⟩ := leads_of_attributed tree vfs agree h
    exact ⟨htree, hvfs, hagree.trans (or_iff_right refused).symm⟩

variable [LikeStore D]

section Creation

variable {name : FileName} {cred : Cred} {mode : Nat}

/-- The new file is empty, and so is its VFS inode. -/
theorem leads_of_entered {e : Entry} {m' a' : Machine Store} {now : Timespec} {i : VfsInode}
    (vfs : VfsFiles a.disk.content a.inodes a.inodeCount)
    (agree : SizesAgree a.disk.content a.inodes) (hne : dir ≠ a.inodeCount)
    (hdir : InodeAt a.disk.content (a.inodes dir).iIno hodoTypeDir)
    (h : Entered (Machine.later (Machine.withInode a)) T (a.inodes dir).iIno name false e m')
    (hlen : storedLen m'.disk.content e.iIno = 0)
    (hfiles : ∀ x b, m'.disk.content x = some b → isDat b = false → fileType b = hodoTypeReg →
      x ≠ e.iIno → a.disk.content x = some b)
    (hdisk : a'.disk = m'.disk) (hcount : a'.inodeCount = m'.inodeCount)
    (hinodes : a'.inodes = update
      (update m'.inodes dir { m'.inodes dir with iSize := (m'.inodes dir).iSize + 1 })
      a.inodeCount (VfsInode.setUp i regularFile cred mode e.iIno now)) (hi : i.iSize = 0) :
    Leads True a' := by
  have hsame : m'.inodes = update a.inodes a.inodeCount newInode := h.inodes.inodes
  have hcount' : a'.inodeCount = a.inodeCount + 1 := hcount.trans h.inodes.inodeCount
  have hnew : a'.inodes a.inodeCount = VfsInode.setUp i regularFile cred mode e.iIno now := by
    rw [hinodes, update_same]
  have hparent : a'.inodes dir = { a.inodes dir with iSize := (a.inodes dir).iSize + 1 } := by
    rw [hinodes, update_other _ _ hne, update_same, hsame, update_other _ _ hne]
  have hother : ∀ r, r ≠ a.inodeCount → r ≠ dir → a'.inodes r = a.inodes r := by
    intro r hr hrd
    rw [hinodes, update_other _ _ hr, update_other _ _ hrd, hsame, update_other _ _ hr]
  constructor
  case tree => exact ⟨_, hdisk ▸ h.tree⟩
  case vfs =>
    rw [hcount', hdisk]
    refine vfs.made h.there (vfs.fresh h.fresh) (by rw [hnew]; rfl) (fun r hr => ?_) h.keeps
    by_cases hrd : r = dir
    · rw [hrd, hparent]
      exact ⟨rfl, rfl, rfl⟩
    · rw [hother r hr hrd]
      exact ⟨rfl, rfl, rfl⟩
  case agree_iff =>
    rw [hdisk, sizesAgree_iff a.inodeCount agree, hnew]
    · refine iff_of_true (fun _ => ?_) trivial
      show i.iSize = (storedLen m'.disk.content e.iIno : Nat)
      rw [hi, hlen]
      rfl
    · intro r hr hfile
      have hrd : r ≠ dir := by
        rintro rfl
        have htype := storedType_eq_some.mpr (h.keeps _ _ hdir)
        rw [hparent] at hfile
        exact absurd (htype.symm.trans hfile.2) (by decide)
      rw [hother r hr hrd] at hfile ⊢
      have hno := vfs.fresh h.fresh r (by rw [hfile.1]; simp)
      obtain ⟨hold, hsize⟩ := ofFile_of_content (c := a.disk.content)
        (fun b hb hdat hreg => hfiles _ b hb hdat hreg hno) hfile
      exact ⟨hold, rfl, rfl, hsize⟩

theorem wp_create_sizes (tree : DiskTree a.disk T)
    (vfs : VfsFiles a.disk.content a.inodes a.inodeCount)
    (agree : SizesAgree a.disk.content a.inodes) (hop : (a.inodes dir).iOp = some .dir)
    (hdir : InodeAt a.disk.content (a.inodes dir).iIno hodoTypeDir)
    (vacant : ∀ e ∈ T (a.inodes dir).iIno, e.name ≠ name) :
    wp (plain D clock) (SizeCall.program zonefs (.create cred dir name.bytes mode))
      (fun _ a' => Leads True a') a := by
  have hne : dir ≠ a.inodeCount := by
    rintro rfl
    rw [(vfs.spare _ (Nat.le_refl _)).1] at hop
    cases hop
  have hsame : ((Machine.later (Machine.withInode a)).inodes dir) = a.inodes dir :=
    update_other _ _ hne
  obtain ⟨b, hb, _⟩ := id hdir
  have hmod : ((Machine.later (Machine.withInode a)).inodes dir).iIno % 2 ^ 32 =
      (a.inodes dir).iIno := by
    rw [hsame]
    exact Nat.mod_eq_of_lt (tree.valid.number_lt (tree.valid.used hb))
  simp only [SizeCall.program, hodoCreate, wp_bind, wp_allocInode, wp_currentTime, wp_setInode,
    wp_pure]
  apply wp_mono _ (wp_and (wp_storeNewInode_tree (m := Machine.later (Machine.withInode a))
    (show regularFile.type = if false then 1 else 0 from rfl) tree hmod hdir vacant)
    (wp_storeNewInode_files (m := Machine.later (Machine.withInode a)) name.le tree hmod hdir))
  rintro n m' ⟨⟨e, rfl, h⟩, hlen, hfiles⟩
  refine leads_of_entered vfs agree hne hdir h hlen hfiles rfl rfl rfl ?_
  rw [updateInode_inodes, update_other _ _ (Ne.symm hne)]
  simp only [h.inodes.inodes, later_inodes, withInode_inodes, update_same]
  rfl

end Creation

/-- A write of a file changes its two sizes alike, and those of no other file. -/
theorem leads_of_written {a' : Machine Store} {ref : Nat} {b b' : Block} (tree : DiskTree a.disk T)
    (vfs : VfsFiles a.disk.content a.inodes a.inodeCount)
    (agree : SizesAgree a.disk.content a.inodes) (hfop : (a.inodes ref).iFop = some .file)
    (hb : a.disk.content (a.inodes ref).iIno = some b) (hdat : isDat b = false)
    (hreg : fileType b = hodoTypeReg) (hw : FileWritten a.disk a'.disk (a.inodes ref).iIno b b')
    (hsize : (a'.inodes ref).iSize = fileLen b') (honly : OnlySize a a' ref) : Leads True a' := by
  obtain ⟨size, hinodes, hcount⟩ := honly
  have hother : ∀ r, r ≠ ref → a'.inodes r = a.inodes r := by
    intro r hr
    rw [hinodes, update_other _ _ hr]
  have hino : (a'.inodes ref).iIno = (a.inodes ref).iIno := by rw [hinodes, update_same]
  have hthere : ∀ r, (a'.inodes r).iIno = (a.inodes r).iIno ∧
      (a'.inodes r).iOp = (a.inodes r).iOp ∧ (a'.inodes r).iFop = (a.inodes r).iFop := by
    intro r
    by_cases hr : r = ref
    · rw [hr, hinodes, update_same]
      exact ⟨rfl, rfl, rfl⟩
    · rw [hother r hr]
      exact ⟨rfl, rfl, rfl⟩
  constructor
  case tree => exact ⟨T, tree.fileWritten hb hdat hreg hw⟩
  case vfs =>
    rw [hcount]
    exact vfs.changed (fun r => (hthere r).1) (fun r => Or.inl (hthere r).2)
      fun _ _ hat => FileWritten.inodeAt hw tree.forest hb hat
  case agree_iff =>
    rw [sizesAgree_iff ref agree]
    · exact iff_of_true (fun _ => by rw [hsize, hino, storedLen_eq hw.inode]) trivial
    · intro r hr hfile
      rw [hother r hr] at hfile ⊢
      have hno : (a.inodes r).iIno ≠ (a.inodes ref).iIno := fun heq =>
        hr (vfs.apart r ref (by rw [hfile.1]; simp) (by rw [hfop]; simp) heq)
      obtain ⟨hold, hlen⟩ := ofFile_of_content (c := a.disk.content)
        (fun b hb hdat _ => hw.inodes _ b hb hdat hno) hfile
      exact ⟨hold, rfl, rfl, hlen⟩

theorem wp_write_leads {iocb : Kiocb} {iter : IovIter} (tree : DiskTree a.disk T)
    (vfs : VfsFiles a.disk.content a.inodes a.inodeCount)
    (agree : SizesAgree a.disk.content a.inodes)
    (hfile : OfFile a.disk.content (a.inodes iocb.inode))
    (hpos : 0 ≤ iocb.kiPos ∧ iocb.kiPos < 2 ^ 63) :
    wp (plain D clock) (hodoFileWriteIter zonefs iocb iter)
      (fun r a' => 0 ≤ r.1 → Leads True a') a := by
  obtain ⟨b, hb, hdat, hreg⟩ := storedType_eq_some.mp hfile.2
  have hused := tree.valid.used hb
  apply (wp_hodoFileWriteIter zonefs hused.1 _).mpr
  have hlen := agree iocb.inode hfile
  rw [storedLen_eq hb] at hlen
  apply wp_mono _ (wp_write_sizes (Nat.mod_eq_of_lt (tree.valid.number_lt hused)) tree.valid
    tree.forest hb hdat ⟨hpos.1, by omega⟩ hlen)
  intro r a' h hr
  obtain ⟨⟨b', hw, hsize⟩, honly⟩ := h hr
  exact leads_of_written tree vfs agree hfile.1 hb hdat hreg hw hsize honly

/-- The VFS inodes after the one under `ref` was dropped and one for the stored `c` set up. -/
structure LookedUp (a : Machine Store) (ref : Nat) (c : Block) (a' : Machine Store) : Prop where
  disk : a'.disk = a.disk
  count : a'.inodeCount = a.inodeCount + 1
  new : a'.inodes a.inodeCount = VfsInode.lookedUp newInode c
  old : ∀ r, r ≠ a.inodeCount →
    (a'.inodes r).iIno = (update a.inodes ref (VfsInode.unused (a.inodes ref)) r).iIno ∧
    (a'.inodes r).iOp = (update a.inodes ref (VfsInode.unused (a.inodes ref)) r).iOp ∧
    (a'.inodes r).iFop = (update a.inodes ref (VfsInode.unused (a.inodes ref)) r).iFop ∧
    (a'.inodes r).iSize = (update a.inodes ref (VfsInode.unused (a.inodes ref)) r).iSize

theorem update_unused (inodes : Nat → VfsInode) (ref r : Nat) :
    (update inodes ref (VfsInode.unused (inodes ref)) r).iIno = (inodes r).iIno := by
  by_cases hr : r = ref
  · rw [hr, update_same]
    rfl
  · rw [update_other _ _ hr]

theorem wp_lookup {dentry : Dentry} {e : Entry} {c : Block} (tree : DiskTree a.disk T)
    (root : (a.inodes rootRef).iIno = 16)
    (hdir : InodeAt a.disk.content (a.inodes dir).iIno hodoTypeDir)
    (he : e ∈ T (a.inodes dir).iIno) (hname : e.name.bytes = dentry.name)
    (hc : a.disk.content e.iIno = some c) (hne : dentry.inode ≠ dir) :
    wp (plain D clock) (SizeCall.program zonefs (.lookup dir dentry))
      (fun _ a' => LookedUp a dentry.inode c a') a := by
  have hparent : (Machine.updateInode a dentry.inode VfsInode.unused).inodes dir =
      a.inodes dir := update_other _ _ (Ne.symm hne)
  rw [SizeCall.program, wp_bind, wp_setInode, wp_bind]
  apply wp_mono _ (wp_hodoSubLookup
    (m := Machine.updateInode a dentry.inode VfsInode.unused) tree
    ((update_unused _ _ _).trans (root.trans tree.valid.base.symm)) (by rw [hparent]; exact hdir)
    (by rw [hparent]; exact he) hname hc)
  rintro _ a' ⟨_, hdisk, hcount, now, hinodes⟩
  rw [hparent] at hinodes
  rw [wp_pure]
  constructor
  case disk => exact hdisk
  case count => exact hcount
  case new =>
    rw [hinodes]
    exact update_same _ _ _
  case old =>
    intro r hr
    rw [hinodes]
    refine (update_other _ _
      (show r ≠ (Machine.updateInode a dentry.inode VfsInode.unused).inodeCount
      from hr)).symm ▸ ?_
    by_cases hrd : r = dir
    · rw [hrd, update_same, update_other _ _ (Ne.symm hne)]
      exact ⟨rfl, rfl, rfl, rfl⟩
    · rw [update_other _ _ hrd]
      exact ⟨rfl, rfl, rfl, rfl⟩

/-- A file that is looked up again has size 0 in its new VFS inode. -/
theorem leads_of_lookedUp {ref n : Nat} {c : Block} {a' : Machine Store} (tree : DiskTree a.disk T)
    (vfs : VfsFiles a.disk.content a.inodes a.inodeCount)
    (agree : SizesAgree a.disk.content a.inodes) (hn : (a.inodes ref).iIno = n)
    (hc : a.disk.content n = some c) (hdat : isDat c = false) (hfop : (a.inodes ref).iFop ≠ none)
    (h : LookedUp a ref c a') :
    Leads (storedType a.disk.content n = some hodoTypeReg → storedLen a.disk.content n = 0) a' := by
  have hown := iIno_of_inode tree.valid hc hdat
  have hnone : (update a.inodes ref (VfsInode.unused (a.inodes ref)) ref).iFop = none := by
    rw [update_same]
    rfl
  have dropped : VfsFiles a.disk.content (update a.inodes ref (VfsInode.unused (a.inodes ref)))
      a.inodeCount := by
    refine vfs.changed (update_unused _ _) (fun r => ?_) fun _ _ hat => hat
    by_cases hr : r = ref
    · rw [hr, update_same]
      exact Or.inr ⟨rfl, rfl⟩
    · rw [update_other _ _ hr]
      exact Or.inl ⟨rfl, rfl⟩
  constructor
  case tree => exact ⟨T, h.disk ▸ tree⟩
  case vfs =>
    rw [h.count, h.disk]
    refine dropped.made ⟨c, hc, hdat, rfl⟩ (fun r hr heq => ?_) (by rw [h.new]; exact hown)
      (fun r hr => ⟨(h.old r hr).1, (h.old r hr).2.1, (h.old r hr).2.2.1⟩) fun _ _ hat => hat
    have hrd : r ≠ ref := by
      rintro rfl
      exact hr hnone
    rw [update_other _ _ hrd] at hr heq
    exact hrd (vfs.apart r ref hr hfop (heq.trans hn.symm))
  case agree_iff =>
    rw [h.disk]
    refine (sizesAgree_iff a.inodeCount agree fun r hr hfile => ?_).trans ?_
    · obtain ⟨hino, _, hfile', hsize⟩ := h.old r hr
      have hrd : r ≠ ref := by
        rintro rfl
        rw [OfFile, hfile', hnone] at hfile
        cases hfile.1
      rw [update_other _ _ hrd] at hino hfile' hsize
      exact ⟨ofFile_of_ino hino hfile' hfile, hino, hsize, rfl⟩
    · rw [h.new, OfFile, show (VfsInode.lookedUp newInode c).iIno = n from hown]
      constructor
      · intro hsize hreg
        exact Int.natCast_eq_zero.mp (hsize ⟨rfl, hreg⟩).symm
      · intro hlen hfile
        rw [hlen hfile.2]
        rfl

end Calls

section Steps

variable {zonefs : Kiocb → IovIter → Program (Int × Kiocb × IovIter)} {clock : Nat → Timespec}
  {m : Machine Volume} {a : Machine Store}

structure SizeState (a : Machine Store) : Prop where
  tree : ∃ T, DiskTree a.disk T
  vfs : VfsFiles a.disk.content a.inodes a.inodeCount
  agree : SizesAgree a.disk.content a.inodes

theorem follows_leads {c : SizeCall} {kept : Prop} (h : Follows true m a)
    (fits : Guarded (machine volumeDisk (zeroFilled clock)) Fits (SizeCall.program zonefs c) m)
    (safe : wp (plain storeDisk clock) (SizeCall.program zonefs c) (fun _ a' => Leads kept a') a) :
    ∃ r m' a', sizeStep zonefs volumeDisk (zeroFilled clock) m c = some (r, m') ∧
      Follows true m' a' ∧ Leads kept a' := by
  obtain ⟨r, m', a', hexec, h', leads⟩ := program_follows h fits safe
  exact ⟨r, m', a', by rw [sizeStep, hexec], h', leads⟩

theorem sizeStep_leads {c : SizeCall} (h : Follows true m a) (state : SizeState a)
    (admits : Admits zonefs clock m c) :
    ∃ r m' a', sizeStep zonefs volumeDisk (zeroFilled clock) m c = some (r, m') ∧
      Follows true m' a' ∧ Leads (SizeCall.KeepsSize (onDisk m.disk) m.inodes c) a' := by
  obtain ⟨T, tree⟩ := state.tree
  obtain ⟨called, fits⟩ := admits
  have hdisk := Represents.onDisk h.represents
  cases c with
  | create cred dir name mode =>
    obtain ⟨vacant, hdir⟩ := called
    rw [hdisk, h.inodes] at hdir
    have hat := storedType_eq_some.mp hdir
    obtain ⟨hop, n, rfl, hvacant⟩ := DirsHold.vacant h tree.toDirsHold hat vacant
    exact follows_leads h fits (wp_create_sizes tree state.vfs state.agree hop hat hvacant)
  | lookup dir dentry =>
    obtain ⟨linked, hne, hfop, hdir⟩ := called
    rw [hdisk, h.inodes] at hdir
    rw [h.inodes] at hfop
    have hat := storedType_eq_some.mp hdir
    obtain ⟨_, e, he, hname, htarget⟩ := DirsHold.linked h tree.toDirsHold hat linked
    obtain ⟨b, hb, hdat, _⟩ := tree.target he
    refine follows_leads h fits (wp_mono ?_ (wp_lookup tree state.vfs.root hat he hname hb hne))
    intro _ a' looked
    rw [hdisk, h.inodes]
    have leads := leads_of_lookedUp tree state.vfs state.agree htarget.symm hb hdat hfop looked
    rwa [htarget] at leads
  | write iocb iter =>
    obtain ⟨hfile, hpos, succeeds⟩ := called
    rw [hdisk, h.inodes] at hfile
    obtain ⟨r, m', a', hexec, h', leads⟩ := program_follows h (guarded_bind.mp fits).1
      (wp_write_leads tree state.vfs state.agree hfile hpos)
    refine ⟨r.1, m', a', ?_, h', leads (succeeds _ hexec)⟩
    rw [sizeStep, SizeCall.program, exec_bind, hexec]
    rfl
  | setattr prepared ref attr =>
    refine follows_leads h fits ?_
    rw [hdisk, h.inodes]
    exact wp_setattr_leads tree state.vfs state.agree

theorem sizeState_mounted (uid gid groups : Nat) (now : Timespec) :
    SizeState (mounted (mountedStore zeros uid gid) groups now) := by
  have inv := treeInv_mounted uid gid groups now
  have hroot := (inv.dirAt (show ((mounted (mountedStore zeros uid gid) groups now).inodes
    rootRef).iOp = some .dir from rfl)).2
  have only : ∀ r, ((mounted (mountedStore zeros uid gid) groups now).inodes r).iFop ≠ none →
      r = rootRef := by
    intro r hr
    by_contra hne
    exact hr (congrArg VfsInode.iFop (update_other _ _ hne))
  constructor
  case tree => exact ⟨_, inv.toDiskTree⟩
  case vfs =>
    constructor
    case stored =>
      intro r hr
      rw [only r hr]
      exact ⟨_, hroot⟩
    case spare => exact inv.vfs.spare
    case apart => exact fun r r' hr hr' _ => (only r hr).trans (only r' hr').symm
    case root => exact inv.vfs.root
    case rootUsed => exact inv.vfs.rootUsed
  case agree =>
    intro r hfile
    have hr := only r (by rw [hfile.1]; simp)
    rw [hr] at hfile
    exact absurd (Option.some.inj (hfile.2.symm.trans (storedType_eq_some.mpr hroot))) (by decide)

/-- In every run from a first mount whose calls leave the two sizes of each file equal, they
are equal in the end; and then they are after one more call just if it is such a call. -/
theorem sizes_agree_iff (clock : Nat → Timespec) (uid gid groups : Nat) (now : Timespec)
    (zonefs : Kiocb → IovIter → Program (Int × Kiocb × IovIter)) (cs : List SizeCall)
    (calls : EachCall (sizeStep zonefs volumeDisk (zeroFilled clock))
      (fun m c => Admits zonefs clock m c ∧ SizeCall.KeepsSize (onDisk m.disk) m.inodes c) cs
      (firstMounted uid gid groups now)) :
    ∃ as m, run (sizeStep zonefs volumeDisk (zeroFilled clock)) cs
        (firstMounted uid gid groups now) = some (as, m) ∧
      SizesAgree (onDisk m.disk) m.inodes ∧
      ∀ c, Admits zonefs clock m c →
        ∃ r m', sizeStep zonefs volumeDisk (zeroFilled clock) m c = some (r, m') ∧
          (SizesAgree (onDisk m'.disk) m'.inodes ↔
            SizeCall.KeepsSize (onDisk m.disk) m.inodes c) := by
  obtain ⟨as, m, hrun, a, h, state⟩ := run_total _
    (fun m => ∃ a, Follows true m a ∧ SizeState a) (fun m c ⟨a, h, state⟩ ⟨admits, keeps⟩ => by
      obtain ⟨r, m', a', hstep, h', leads⟩ := sizeStep_leads h state admits
      exact ⟨r, m', hstep, a', h', leads.tree, leads.vfs, leads.agree_iff.mpr keeps⟩)
    ⟨_, follows_mounted zeros uid gid groups now, sizeState_mounted uid gid groups now⟩ calls
  refine ⟨as, m, hrun, ?_, fun c admits => ?_⟩
  · rw [Represents.onDisk h.represents, h.inodes]
    exact state.agree
  · obtain ⟨r, m', a', hstep, h', leads⟩ := sizeStep_leads h state admits
    refine ⟨r, m', hstep, ?_⟩
    rw [Represents.onDisk h'.represents, h'.inodes]
    exact leads.agree_iff

/-- A file is made and two bytes are written. -/
def writtenFile : List SizeCall :=
  [.create ⟨0, 0⟩ rootRef [97] 0o644, .write ⟨1, false, 0⟩ ⟨[1, 2], 2⟩]

theorem writtenFile_agrees : ∃ as m r m',
    run (sizeStep noZonefs volumeDisk (zeroFilled fun _ => ⟨0, 0⟩)) writtenFile
      (firstMounted 0 0 0 ⟨0, 0⟩) = some (as, m) ∧ SizesAgree (onDisk m.disk) m.inodes ∧
    sizeStep noZonefs volumeDisk (zeroFilled fun _ => ⟨0, 0⟩) m (.write ⟨1, true, 0⟩ ⟨[3], 1⟩) =
      some (r, m') ∧ SizesAgree (onDisk m'.disk) m'.inodes := by
  obtain ⟨as, m, hrun, hagree, hnext⟩ := sizes_agree_iff (fun _ => ⟨0, 0⟩) 0 0 0 ⟨0, 0⟩ noZonefs
    writtenFile (by decide +kernel)
  have hcall : ∃ x, run (sizeStep noZonefs volumeDisk (zeroFilled fun _ => ⟨0, 0⟩)) writtenFile
      (firstMounted 0 0 0 ⟨0, 0⟩) = some x ∧
      Admits noZonefs (fun _ => ⟨0, 0⟩) x.2 (.write ⟨1, true, 0⟩ ⟨[3], 1⟩) := by
    decide +kernel
  obtain ⟨x, hrun', admits⟩ := hcall
  obtain rfl := Option.some.inj (hrun'.symm.trans hrun)
  obtain ⟨r, m', hstep, hiff⟩ := hnext _ admits
  exact ⟨as, m, r, m', hrun, hagree, hstep, hiff.mpr trivial⟩

/-- The two bytes are in the log, and the VFS inode of the file is empty. -/
theorem writtenFile_looked_up : ∃ x,
    run (sizeStep noZonefs volumeDisk (zeroFilled fun _ => ⟨0, 0⟩)) writtenFile
      (firstMounted 0 0 0 ⟨0, 0⟩) = some x ∧
    Admits noZonefs (fun _ => ⟨0, 0⟩) x.2 (.lookup rootRef ⟨[97], [47], 1⟩) ∧
    ∃ y, sizeStep noZonefs volumeDisk (zeroFilled fun _ => ⟨0, 0⟩) x.2
        (.lookup rootRef ⟨[97], [47], 1⟩) = some y ∧
      ¬ SizesAgree (onDisk y.2.disk) y.2.inodes := by
  have hcall : ∃ x,
      run (sizeStep noZonefs volumeDisk (zeroFilled fun _ => ⟨0, 0⟩)) writtenFile
        (firstMounted 0 0 0 ⟨0, 0⟩) = some x ∧
      Admits noZonefs (fun _ => ⟨0, 0⟩) x.2 (.lookup rootRef ⟨[97], [47], 1⟩) ∧
      ∃ y, sizeStep noZonefs volumeDisk (zeroFilled fun _ => ⟨0, 0⟩) x.2
          (.lookup rootRef ⟨[97], [47], 1⟩) = some y ∧
        OfFile (onDisk y.2.disk) (y.2.inodes 2) ∧
        (y.2.inodes 2).iSize ≠ storedLen (onDisk y.2.disk) (y.2.inodes 2).iIno := by
    decide +kernel
  obtain ⟨x, hrun, admits, y, hstep, hfile, hne⟩ := hcall
  exact ⟨x, hrun, admits, y, hstep, fun h => hne (h 2 hfile)⟩

end Steps

end Sizes
