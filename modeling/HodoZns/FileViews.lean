import HodoZns.SystemRuns

/-!
# A file as an array of blocks

A write as it looks without the pointers, the numbers and the log: the length of
the file, the size that the VFS has for it, and the data of its blocks. Beside
it the commands that a write gives.
-/

namespace FileViews

open ByteBlock Layout BlockLog ZoneLog LogStore Programs Kernel StoreMachine FileBlocks BlockForest
open BlockFields TreeWrites FileWrites Ownership FileContents Erasures TreeCalls SystemRuns

structure View where
  len : Nat
  size : Int
  block : Nat → Option (List UInt8)

def blockData (t : Block) : List UInt8 :=
  (List.range hodoDataSize).map fun j => byteAt t (hodoDataStart + j)

def viewOf (c : Nat → Option Block) (size : Int) (n : Nat) : View where
  len := storedLen c n
  size := size
  block o := (storedBlock c n o).map blockData

/-- The bytes of the file, with zeros where a block is missing. -/
def storedBytes (c : Nat → Option Block) (n : Nat) : List UInt8 :=
  (List.range (storedLen c n)).map (storedByte c n)

def View.byteIn (v : View) (o j : Nat) : UInt8 := ((v.block o).getD []).getD j 0

def View.bytes (v : View) : List UInt8 :=
  (List.range v.len).map fun off => v.byteIn (off / hodoDataSize) (off % hodoDataSize)

/-- With `IOCB_APPEND` the position is the end of the file. -/
def View.request (v : View) (iocb : Kiocb) : Kiocb :=
  if iocb.append then { iocb with kiPos := v.size } else iocb

/-- The length and the size are set to where the call has come to. -/
def View.resize (v : View) (pos : Int) : View := { v with len := u64 pos, size := pos }

/-- One block of a request is written. -/
def View.put (v : View) (iocb : Kiocb) (iter : IovIter) : View :=
  { v.resize (iocb.kiPos + pieceLen iocb iter) with
    block := update v.block (dataBlockIndex iocb)
      (some ((List.range hodoDataSize).map
        (pieceByte (v.byteIn (dataBlockIndex iocb)) iocb iter))) }

/-- The answers of `write_one_block`, and what it makes of the file. -/
inductive Stepped (v : View) (iocb : Kiocb) (iter : IovIter) : Int × Kiocb × IovIter → View → Prop
  | tooBig : fieldOf (dataBlockIndex iocb) = none → Stepped v iocb iter (eFBig, iocb, iter) v
  | fault {iter' : IovIter} : fieldOf (dataBlockIndex iocb) ≠ none →
      iter.readable < pieceLen iocb iter →
      Stepped v iocb iter (eFault, { iocb with kiPos := iocb.kiPos + eFault }, iter')
        (v.resize (iocb.kiPos + eFault))
  | written : fieldOf (dataBlockIndex iocb) ≠ none → pieceLen iocb iter ≤ iter.readable →
      Stepped v iocb iter
        ((pieceLen iocb iter : Int), { iocb with kiPos := iocb.kiPos + pieceLen iocb iter },
          IovIter.advance iter (pieceLen iocb iter)) (v.put iocb iter)

/-- The loop of `hodo_sub_file_write_iter`: what it returns, and the file behind it. -/
def View.writeBlocks (len : Nat) : Nat → Nat → Kiocb → IovIter → View → Int × View
  | 0, total, _, _, v => (total, v)
  | turns + 1, total, iocb, iter, v =>
    if total < len then
      let iocb := v.request iocb
      if fieldOf (dataBlockIndex iocb) = none then (eFBig, v)
      else if iter.readable < pieceLen iocb iter then (eFault, v.resize (iocb.kiPos + eFault))
      else View.writeBlocks len turns (total + pieceLen iocb iter)
        { iocb with kiPos := iocb.kiPos + pieceLen iocb iter }
        (IovIter.advance iter (pieceLen iocb iter)) (v.put iocb iter)
    else (total, v)

def View.write (v : View) (iocb : Kiocb) (iter : IovIter) : Int × View :=
  View.writeBlocks iter.count (iter.count + 1) 0 iocb iter v

section Bytes

variable {c : Nat → Option Block} {n : Nat}

theorem getD_blockData (t : Block) {j : Nat} (hj : j < hodoDataSize) :
    (blockData t).getD j 0 = byteAt t (hodoDataStart + j) := by
  rw [blockData, List.getD_eq_getElem?_getD, List.getElem?_map, List.getElem?_range hj]
  rfl

theorem byteIn_viewOf (size : Int) (o : Nat) {j : Nat} (hj : j < hodoDataSize) :
    (viewOf c size n).byteIn o j = dataByte (storedBlock c n o) j := by
  simp only [View.byteIn, viewOf]
  cases storedBlock c n o with
  | none => simp only [Option.map_none, Option.getD_none, List.getD_nil, dataByte]
  | some t => simp only [Option.map_some, Option.getD_some, getD_blockData t hj, dataByte]

theorem bytes_viewOf (size : Int) : (viewOf c size n).bytes = storedBytes c n := by
  refine List.map_congr_left fun off _ => ?_
  rw [byteIn_viewOf size _ (Nat.mod_lt _ (by simp))]
  rfl

theorem byteIn_put (v : View) (iocb : Kiocb) (iter : IovIter) (o : Nat) {j : Nat}
    (hj : j < hodoDataSize) :
    (v.put iocb iter).byteIn o j = if o = dataBlockIndex iocb
      then pieceByte (v.byteIn (dataBlockIndex iocb)) iocb iter j else v.byteIn o j := by
  simp only [View.byteIn, View.put]
  split
  case isTrue ho =>
    rw [ho, update_same, Option.getD_some, List.getD_eq_getElem?_getD, List.getElem?_map,
      List.getElem?_range hj]
    rfl
  case isFalse ho => rw [update_other _ _ ho]

/-- What is written at the end of the file is behind what was there. -/
theorem bytes_put {v : View} {iocb : Kiocb} {iter : IovIter} (hpos : iocb.kiPos = v.len)
    (small : v.len + hodoDataSize < 2 ^ 64) :
    (v.put iocb iter).bytes = v.bytes ++ iter.bytes.take (pieceLen iocb iter) := by
  have hle := pieceLen_le iocb iter
  rw [hodoDataSize_eq] at small
  have hu : u64 iocb.kiPos = v.len := by rw [hpos, u64_ofNat (by omega)]
  have hindex : dataBlockIndex iocb = v.len / 4088 := by rw [dataBlockIndex, hu, hodoDataSize_eq]
  have hbound : v.len + pieceLen iocb iter ≤ 4088 * (v.len / 4088 + 1) := by
    simp only [pieceLen, hu, hodoDataSize_eq]
    omega
  have hlen : (v.put iocb iter).len = v.len + pieceLen iocb iter := by
    change u64 (iocb.kiPos + pieceLen iocb iter) = _
    rw [hpos, ← Int.natCast_add, u64_ofNat (by omega)]
  have hbyte : ∀ off, (v.put iocb iter).byteIn (off / 4088) (off % 4088) =
      if off / 4088 = v.len / 4088
        then pieceByte (v.byteIn (v.len / 4088)) iocb iter (off % 4088)
        else v.byteIn (off / 4088) (off % 4088) := by
    intro off
    rw [byteIn_put v iocb iter _ (by rw [hodoDataSize_eq]; omega), hindex]
  rw [View.bytes, hlen, List.range_add, List.map_append, hodoDataSize_eq]
  congr 1
  · rw [View.bytes, hodoDataSize_eq]
    refine List.map_congr_left fun off hoff => ?_
    have hlt := List.mem_range.mp hoff
    rw [hbyte]
    split
    case isTrue heq =>
      simp only [pieceByte, hu, hodoDataSize_eq]
      rw [if_pos (by omega), heq]
    case isFalse => rfl
  · apply List.ext_getElem
    · simp only [List.length_map, List.length_range, List.length_take]
      omega
    · intro j hj _
      simp only [List.length_map, List.length_range] at hj
      simp only [List.getElem_map, List.getElem_range, List.getElem_take]
      rw [hbyte, if_pos (by omega)]
      simp only [pieceByte, hu, hodoDataSize_eq]
      have hplace : (v.len + j) % 4088 - v.len % 4088 = j := by omega
      rw [if_neg (by omega), hplace, List.getD_eq_getElem?_getD, List.getElem?_take_of_lt hj,
        List.getElem?_eq_getElem (by omega), Option.getD_some]

end Bytes

/-- `ref` is the VFS inode of what is stored under `n`. -/
structure FileAt (a : Machine Store) (ref n : Nat) : Prop where
  valid : Valid a.disk
  forest : IsForest a.disk.content
  ino : (a.inodes ref).iIno = n
  inode : ∃ b, a.disk.content n = some b ∧ isDat b = false

def viewAt (a : Machine Store) (ref n : Nat) : View :=
  viewOf a.disk.content (a.inodes ref).iSize n

section Writes

variable {D : Disk Store} [KeepsBlocks D] {clock : Nat → Timespec} {a a' : Machine Store}
  {ref n : Nat}

theorem FileAt.number (file : FileAt a ref n) : (a.inodes ref).iIno % 2 ^ 32 = n := by
  obtain ⟨b, hn, _⟩ := file.inode
  rw [file.ino, Nat.mod_eq_of_lt (file.valid.number_lt (file.valid.used hn))]

theorem positioned_request (iocb : Kiocb) (hinode : iocb.inode = ref) :
    positioned a iocb = (viewAt a ref n).request iocb := by
  rw [positioned, View.request, hinode]
  rfl

theorem fileAt_of_written {b b' : Block} {size : Int} (file : FileAt a ref n)
    (written : FileWritten a.disk a'.disk n b b') (resized : Resized a a' ref size) :
    FileAt a' ref n := by
  refine ⟨written.valid, written.forest, ?_, b', written.inode, written.isInode⟩
  rw [resized.inodes, update_same, file.ino]

/-- A block's write does to the file what it does to the array of its blocks. -/
theorem stepped_of_result {iocb : Kiocb} {iter : IovIter} {b : Block} {r : Int × Kiocb × IovIter}
    (file : FileAt a ref n) (hn : a.disk.content n = some b) (hinode : iocb.inode = ref)
    (h : BlockResult a iocb iter n b r a') :
    FileAt a' ref n ∧ Stepped (viewAt a ref n) iocb iter r (viewAt a' ref n) := by
  subst hinode
  cases h with
  | tooBig hnone hdisk hsame =>
    have hview : viewAt a' iocb.inode n = viewAt a iocb.inode n := by
      rw [viewAt, hdisk, hsame.inodes, viewAt]
    rw [hview]
    exact ⟨⟨hdisk ▸ file.valid, hdisk ▸ file.forest, by rw [hsame.inodes, file.ino],
      by rw [hdisk]; exact file.inode⟩, .tooBig hnone⟩
  | @fault _ _ b' hshort hwritten hdata hlen hresized hfield =>
    have hview : viewAt a' iocb.inode n =
        (viewAt a iocb.inode n).resize (iocb.kiPos + eFault) := by
      simp only [viewAt, viewOf, View.resize, storedLen_eq hwritten.inode, hlen, hresized.inodes,
        update_same, storedBlock_eq hwritten.inode, hdata, storedBlock_eq hn]
    rw [hview]
    obtain ⟨f, hf⟩ := hfield
    exact ⟨fileAt_of_written file hwritten hresized,
      .fault (by rw [hf]; exact Option.some_ne_none f) hshort⟩
  | @written _ b' f hf hread hwritten hlen hresized =>
    have hview : viewAt a' iocb.inode n = (viewAt a iocb.inode n).put iocb iter := by
      simp only [viewAt, viewOf, View.put, View.resize, storedLen_eq hwritten.inode, hlen,
        hresized.inodes, update_same, View.mk.injEq, true_and]
      funext o
      rw [storedBlock_eq hwritten.inode]
      by_cases ho : o = dataBlockIndex iocb
      · obtain ⟨t, ht⟩ := Option.ne_none_iff_exists'.mp hwritten.there
        rw [ho, update_same, ht, Option.map_some, blockData]
        refine congrArg some (List.map_congr_left fun j hj => ?_)
        have hlt := List.mem_range.mp hj
        have hbyte := hwritten.data j (by simpa using hlt)
        rw [ht] at hbyte
        refine hbyte.trans ?_
        simp only [pieceByte]
        split
        · rw [← storedBlock_eq hn, ← byteIn_viewOf (a.inodes iocb.inode).iSize _ hlt]
          rfl
        · rfl
      · rw [update_other _ _ ho, hwritten.others o ho, ← storedBlock_eq hn]
    rw [hview]
    exact ⟨fileAt_of_written file hwritten.toFileWritten hresized,
      .written (by rw [hf]; exact Option.some_ne_none f) hread⟩

theorem wp_writeStored_view {iocb : Kiocb} {iter : IovIter} {stack : Block}
    (file : FileAt a ref n) (hinode : iocb.inode = ref) (count : 0 < iter.count) :
    wp (plain D clock) (writeStored iocb iter n stack) (fun r a' => FileAt a' ref n ∧
      Stepped (viewAt a ref n) ((viewAt a ref n).request iocb) iter r (viewAt a' ref n)) a := by
  obtain ⟨b, hn, hb⟩ := file.inode
  refine wp_mono (fun r a' hr => ?_) (wp_writeStored count file.valid file.forest hn hb)
  have hposition : (positioned a iocb).inode = ref := (positioned_inode a iocb).trans hinode
  rw [← positioned_request iocb hinode]
  exact stepped_of_result file hn hposition hr

theorem wp_writeOneBlock_view {iocb : Kiocb} {iter : IovIter} (file : FileAt a ref n)
    (hinode : iocb.inode = ref) (count : 0 < iter.count) :
    wp (plain D clock) (writeOneBlock iocb iter) (fun r a' => FileAt a' ref n ∧
      Stepped (viewAt a ref n) ((viewAt a ref n).request iocb) iter r (viewAt a' ref n)) a := by
  simp only [writeOneBlock_eq, wp_bind, wp_getInode, wp_auto, hinode, file.number]
  exact wp_writeStored_view (a := Machine.later a) ⟨file.valid, file.forest, file.ino, file.inode⟩
    hinode count

theorem request_inode (v : View) (iocb : Kiocb) : (v.request iocb).inode = iocb.inode := by
  rw [View.request]
  split <;> rfl

/-- The loop does to the file what it does to the array of its blocks. -/
theorem wp_writeBlocks_view {len turns total : Nat} {iocb : Kiocb} {iter : IovIter}
    (file : FileAt a ref n) (hinode : iocb.inode = ref) (count : total + iter.count = len)
    (enough : len < total + turns) :
    wp (plain D clock) (writeBlocks len turns total iocb iter) (fun r a' => FileAt a' ref n ∧
      View.writeBlocks len turns total iocb iter (viewAt a ref n) =
        (r.1, viewAt a' ref n)) a := by
  induction turns generalizing a total iocb iter with
  | zero => omega
  | succ turns ih =>
    simp only [FileBlocks.writeBlocks, View.writeBlocks, wp_ite, wp_bind, wp_pure]
    split
    case isFalse => exact ⟨file, rfl⟩
    case isTrue hlt =>
      apply wp_mono _ (wp_writeOneBlock_view file hinode (by omega))
      rintro r a' ⟨file', stepped⟩
      generalize hv' : viewAt a' ref n = v' at stepped
      have hreq := (request_inode (viewAt a ref n) iocb).trans hinode
      generalize (viewAt a ref n).request iocb = iocb at stepped hreq ⊢
      cases stepped with
      | tooBig hnone =>
        rw [if_pos (show (eFBig : Int) < 0 by decide), if_pos hnone]
        exact ⟨file', rfl⟩
      | fault hfield hshort =>
        rw [if_pos (show (eFault : Int) < 0 by decide), if_neg hfield, if_pos hshort]
        exact ⟨file', rfl⟩
      | written hfield hread =>
        have hpos := pieceLen_pos iocb (show 0 < iter.count by omega)
        have hle := pieceLen_le iocb iter
        rw [if_neg (show ¬ (pieceLen iocb iter : Int) < 0 by omega), if_neg hfield,
          if_neg (Nat.not_lt.mpr hread), Int.toNat_natCast, ← hv']
        refine ih file' hreq ?_ (by omega)
        simp only [IovIter.advance, IovIter.count, List.length_drop] at count ⊢
        omega

/-- Calls one after the other, and what they return. -/
def writeCalls : List (Kiocb × IovIter) → Program (List Int)
  | [] => pure []
  | w :: ws => do
    let (ret, _) ← hodoSubFileWriteIter w.1 w.2
    let rets ← writeCalls ws
    pure (ret :: rets)

def View.writeAll (v : View) : List (Kiocb × IovIter) → List Int × View
  | [] => ([], v)
  | w :: ws =>
    let r := (v.write w.1 w.2).2.writeAll ws
    ((v.write w.1 w.2).1 :: r.1, r.2)

theorem wp_hodoSubFileWriteIter_view {iocb : Kiocb} {iter : IovIter} (file : FileAt a ref n)
    (hinode : iocb.inode = ref) :
    wp (plain D clock) (hodoSubFileWriteIter iocb iter) (fun r a' => FileAt a' ref n ∧
      (viewAt a ref n).write iocb iter = (r.1, viewAt a' ref n)) a :=
  wp_writeBlocks_view file hinode (by omega) (by omega)

theorem wp_writeCalls {ws : List (Kiocb × IovIter)} (file : FileAt a ref n)
    (own : ∀ w ∈ ws, w.1.inode = ref) :
    wp (plain D clock) (writeCalls ws) (fun rets a' => FileAt a' ref n ∧
      (viewAt a ref n).writeAll ws = (rets, viewAt a' ref n)) a := by
  induction ws generalizing a with
  | nil => exact (wp_pure _ _ _ _).mpr ⟨file, rfl⟩
  | cons w ws ih =>
    rw [writeCalls, wp_bind]
    apply wp_mono _ (wp_hodoSubFileWriteIter_view file (own w List.mem_cons_self))
    rintro r a' ⟨file', hwrite⟩
    rw [wp_bind]
    apply wp_mono _ (ih file' fun w hw => own w (List.mem_cons_of_mem _ hw))
    rintro rets a'' ⟨file'', hrest⟩
    rw [wp_pure]
    refine ⟨file'', ?_⟩
    simp only [View.writeAll, hwrite, hrest]

end Writes

section Logs

variable {intact : Bool} {m : Machine Volume} {a : Machine Store} {ref n : Nat}

/-- Further blocks do not matter to a file. -/
theorem dataAt_of_extends {c : Nat → Option Block} {b : Block} (file : FileAt a ref n)
    (hn : a.disk.content n = some b) (h0 : c 0 = none)
    (holds : ∀ {x b}, a.disk.content x = some b → c x = some b) (o : Nat) :
    dataAt c b o = dataAt a.disk.content b o := by
  obtain ⟨b', hn', hb⟩ := file.inode
  obtain rfl := Option.some.inj (hn'.symm.trans hn)
  cases hf : fieldOf o with
  | none => rw [dataAt_none hf h0, dataAt_none hf file.valid.content_zero]
  | some f =>
    refine dataAt_congr file.forest file.valid.content_zero h0 hn hb hf rfl fun _ x hx _ => ?_
    obtain ⟨t, ht⟩ := Option.ne_none_iff_exists'.mp hx
    rw [ht, holds ht]

theorem viewOf_of_extends {c : Nat → Option Block} (file : FileAt a ref n) (h0 : c 0 = none)
    (holds : ∀ {x b}, a.disk.content x = some b → c x = some b) (size : Int) :
    viewOf c size n = viewOf a.disk.content size n := by
  obtain ⟨b, hn, _⟩ := file.inode
  simp only [viewOf, storedLen_eq (holds hn), storedLen_eq hn, storedBlock_eq (holds hn),
    storedBlock_eq hn, dataAt_of_extends file hn h0 holds]

/-- The file on the log is the one in the map that the log follows. -/
theorem viewOf_of_follows (follows : Follows intact m a) (file : FileAt a ref n) (size : Int) :
    viewOf (onDisk m.disk) size n = viewOf a.disk.content size n :=
  viewOf_of_extends file (onDisk_zero follows) (onDisk_of_follows follows) size

theorem storedBytes_of_follows (follows : Follows intact m a) (file : FileAt a ref n) :
    storedBytes (onDisk m.disk) n = (viewAt a ref n).bytes := by
  rw [← bytes_viewOf (a.inodes ref).iSize, viewOf_of_follows follows file, viewAt]

theorem fileAt_of_live (inv : LiveInv a) (hfile : (a.inodes ref).iFop = some .file) :
    FileAt a ref (a.inodes ref).iIno := by
  obtain ⟨_, b, hb, hdat⟩ := inv.stored (Or.inr hfile)
  exact ⟨inv.valid, inv.forest, rfl, b, hb, hdat⟩

end Logs

/-- The commands that the helpers of `write_one_block` give. -/
def Storing : Cmd → Prop
  | .read _ _ => True
  | .write _ _ => True
  | .kmalloc => True
  | _ => False

/-- The commands of a write to the file of the VFS inode `ref`. -/
def Writing (ref : Nat) : Cmd → Prop
  | .inode r => r = ref
  | .setInode r f => r = ref ∧ ∀ i, (f i).iIno = i.iIno
  | .auto => True
  | c => Storing c

section Commands

variable {ref : Nat}

theorem writing_of_storing {c : Cmd} (h : Storing c) : Writing ref c := by
  cases c with
  | read n buf => trivial
  | write buf n => trivial
  | kmalloc => trivial
  | _ => exact h.elim

theorem storing_hodoRead (n : Nat) (buf : Block) : (hodoRead n buf).Only Storing :=
  only_bind (only_cmd trivial) fun _ => only_pure _ _

theorem storing_hodoWrite (buf : Block) (n : Nat) : (hodoWrite buf n).Only Storing :=
  only_bind (only_cmd trivial) fun _ => only_pure _ _

theorem storing_readOrMake (p : Nat) (digit : UInt8) (buf : Block) :
    (readOrMake p digit buf).Only Storing :=
  only_ite (storing_hodoRead p buf) (only_pure _ _)

theorem storing_direct (iocb : Kiocb) (iter : IovIter) (n : Nat) (current : Block) :
    (writeOneBlockByDirectBlock iocb iter n current).Only Storing := by
  refine only_bind (only_cmd trivial) fun target => ?_
  cases target with
  | none => exact only_pure _ _
  | some target =>
    exact only_ite (only_pure _ _) (only_bind (storing_hodoWrite _ _) fun _ => only_pure _ _)

theorem storing_indirect (depth : Nat) (iocb : Kiocb) (iter : IovIter) (n : Nat)
    (current : Block) : (writeOneBlockByIndirectBlock depth iocb iter n current).Only Storing := by
  induction depth generalizing iter n current with
  | zero => exact .crash
  | succ depth ih =>
    rw [writeOneBlockByIndirectBlock]
    cases blockPosIndex (dataBlockIndex iocb) current with
    | error e => exact only_pure _ _
    | ok i =>
      refine only_bind (only_cmd trivial) fun target => ?_
      cases target with
      | none => exact only_pure _ _
      | some target =>
        refine only_bind (storing_readOrMake _ _ _) fun target => ?_
        refine only_ite (only_bind (storing_direct _ _ _ _) fun r => ?_)
          (only_bind (ih _ _ _) fun r => ?_)
        -- both come to the same end, which writes the pointer back
        all_goals
          exact only_ite (only_bind (storing_hodoWrite _ _) fun _ => only_pure _ _) (only_pure _ _)

theorem storing_field (iocb : Kiocb) (iter : IovIter) (n : Nat) (current : Block) (f : Field) :
    (f.write iocb iter n current).Only Storing := by
  cases f with
  | direct i => exact storing_direct _ _ _ _
  | _ => exact storing_indirect _ _ _ _ _

theorem writing_startPos {iocb : Kiocb} (hinode : iocb.inode = ref) :
    (startPos iocb).Within (Writing ref) fun iocb => iocb.inode = ref := by
  rw [startPos]
  split
  · exact .call hinode fun target => .done hinode
  · exact .done hinode

theorem within_of_storing {α : Type} {p : Program α} (hp : p.Only Storing) :
    p.Within (Writing ref) fun _ => True :=
  within_of_only (hp.mono fun _ => writing_of_storing)

theorem writing_writeStored {iocb : Kiocb} (iter : IovIter) (n : Nat) (stack : Block)
    (hinode : iocb.inode = ref) :
    (writeStored iocb iter n stack).Within (Writing ref) fun r => r.2.1.inode = ref := by
  refine within_bind (within_of_storing (storing_hodoRead _ _)) fun inode _ => ?_
  refine within_bind (writing_startPos hinode) fun iocb hinode => ?_
  refine within_bind (p := kmalloc) (within_of_storing (only_cmd trivial)) fun block _ => ?_
  cases block with
  | none => exact within_pure hinode
  | some block =>
    simp only
    cases fieldOf (dataBlockIndex iocb) with
    | none => exact within_pure hinode
    | some f =>
      refine within_bind (within_of_storing (storing_readOrMake _ _ _)) fun block _ => ?_
      refine within_bind (within_of_storing (storing_field _ _ _ _ _)) fun r _ => ?_
      refine within_bind (within_of_storing (storing_hodoWrite _ _)) fun _ _ => ?_
      exact .call ⟨hinode, fun _ => rfl⟩ fun _ => within_pure hinode

theorem writing_writeOneBlock {iocb : Kiocb} (iter : IovIter) (hinode : iocb.inode = ref) :
    (writeOneBlock iocb iter).Within (Writing ref) fun r => r.2.1.inode = ref :=
  .call hinode fun _ => .call trivial fun _ => writing_writeStored _ _ _ hinode

theorem writing_writeBlocks {iocb : Kiocb} (len turns total : Nat) (iter : IovIter)
    (hinode : iocb.inode = ref) : (writeBlocks len turns total iocb iter).Only (Writing ref) := by
  induction turns generalizing total iocb iter with
  | zero => exact .crash
  | succ turns ih =>
    rw [writeBlocks]
    refine only_ite ?_ (only_pure _ _)
    refine Prog.Within.only (Q := fun _ => True)
      (within_bind (writing_writeOneBlock iter hinode) fun r hr => within_of_only ?_)
    exact only_ite (only_pure _ _) (ih _ _ hr)

theorem writing_writeCalls {ws : List (Kiocb × IovIter)} (own : ∀ w ∈ ws, w.1.inode = ref) :
    (writeCalls ws).Only (Writing ref) := by
  induction ws with
  | nil => exact only_pure _ _
  | cons w ws ih =>
    refine only_bind (writing_writeBlocks _ _ _ _ (own w List.mem_cons_self)) fun r => ?_
    exact only_bind (ih fun w hw => own w (List.mem_cons_of_mem _ hw)) fun rets => only_pure _ _

end Commands

end FileViews
