import NginxTools.UtilsFiles.FileBuffer
import NginxTools.UtilsFiles.Mkpath

/-!
# Writing text to a file

`utils_files_dump2file` stores a string in a file that it opens for the purpose, at its end or
truncated, and closes again:

    int fd = doTruncateFile ? open(filePath, O_RDWR|O_CREAT|O_TRUNC, ..) :
            open(filePath, O_RDWR|O_APPEND|O_CREAT, ..);
    ...
    size_t str2dump_len = strlen(str2dump);
    if(write(fd, str2dump, str2dump_len) != (ssize_t)str2dump_len)
    ...

so that one file may be made by several calls.

## The model

A file is its bytes. `openFile` and `Fd.write` are the calls on it, and `utilsFilesDump2file` the
function; the folders that it may make beforehand are those of `utilsFilesMkpath`. A path names one
file throughout. The file's mode, and what is logged, are left out.

## What is proved

A call that succeeds stores its string after what the file holds, or in its place
(`file_dump2file`), hence calls store theirs one after the other (`file_dumps`). `text_reads_back` —
afterwards `utils_files_file2buf` returns the text.
-/

namespace NginxTools.UtilsFiles

open Library FileTree

/-! ### An open file -/

/-- A descriptor of a file that is open. -/
structure Fd where
  /-- `O_APPEND`. -/
  append : Bool
  /-- The position at which is read and written. -/
  offset : ℕ

/-- `open` of a file with `O_CREAT`, where it succeeds: what there is of the file, `none` if it does
not exist, becomes its bytes. -/
def openFile (trunc append : Bool) (file : Option (List UInt8)) : Fd × List UInt8 :=
  (⟨append, 0⟩, if trunc then [] else file.getD [])

/-- `write` to a file: the bytes go to its end, or to the position of the descriptor, with zeros
before them if this is beyond the end. -/
def Fd.write (fd : Fd) (bytes file : List UInt8) : List UInt8 :=
  let offset := if fd.append then file.length else fd.offset
  file.take offset ++ List.replicate (offset - file.length) 0 ++ bytes ++
    file.drop (offset + bytes.length)

theorem write_append {offset : ℕ} (bytes file : List UInt8) :
    Fd.write ⟨true, offset⟩ bytes file = file ++ bytes := by
  simp [Fd.write]

theorem write_empty {append : Bool} (bytes : List UInt8) :
    Fd.write ⟨append, 0⟩ bytes [] = bytes := by cases append <;> simp [Fd.write]

/-! ### The function -/

/-- A pathname without the slashes at its end. -/
def stripSlashes (s : List Char) : List Char := (s.reverse.dropWhile (· = '/')).reverse

/-- `dirname`: the pathname up to its last name, `.` if there is nothing before it. -/
def dirname (s : List Char) : List Char :=
  let name := stripSlashes s
  let dir := if name = [] then s else (name.reverse.dropWhile (· ≠ '/')).reverse
  if dir = [] then ['.']
  else if stripSlashes dir = [] then (if dir.length = 2 then ['/', '/'] else ['/'])
  else stripSlashes dir

/-- A call of the function, on one path. -/
structure DumpCall where
  /-- The string, up to its zero; `none` for `NULL`. -/
  str2dump : Option (List UInt8)
  doTruncateFile : Int32
  doCreatePath : Int32
  /-- Whether `open` succeeds. -/
  opened : Bool
  /-- How many bytes `write` stores, `none` when it fails. -/
  written : Option ℕ

/-- What a call works on: the directories, and the file that its path names. -/
structure Target where
  tree : FileSystem
  file : Option (List UInt8)

/-- `utils_files_dump2file`. -/
def utilsFilesDump2file (cwd : Path) (filePath : Option (List Char)) (c : DumpCall) (t : Target) :
    Target :=
  match c.str2dump, filePath with
  | some str2dump, some filePath =>
    if filePath.length > 0 then
      let tree := if c.doCreatePath ≠ 0 then
          (utilsFilesMkpath cwd (some (dirname filePath)) t.tree).2
        else t.tree
      if c.opened then
        let (fd, file) :=
          if c.doTruncateFile ≠ 0 then openFile true false t.file else openFile false true t.file
        match c.written with
        | none => ⟨tree, some file⟩
        | some n => ⟨tree, some (fd.write (str2dump.take n) file)⟩
      else ⟨tree, t.file⟩
    else t
  | _, _ => t

/-- Calls one after the other. -/
def dumps (cwd : Path) (filePath : List Char) : List DumpCall → Target → Target
  | [], t => t
  | c :: calls, t => dumps cwd filePath calls (utilsFilesDump2file cwd (some filePath) c t)

/-! ### What is stored -/

/-- The string of a call. -/
def DumpCall.text (c : DumpCall) : List UInt8 := c.str2dump.getD []

/-- A call that truncates the file. -/
def DumpCall.Truncates (c : DumpCall) : Prop := c.doTruncateFile ≠ 0

/-- There is a string, the file is opened, and the whole of the string is stored. -/
structure DumpCall.Succeeds (c : DumpCall) : Prop where
  str2dump : c.str2dump ≠ none
  opened : c.opened = true
  written : c.written = some c.text.length

/-- A text that calls have made: what they have stored since the last that truncates, or all of it
after the text at first. -/
structure MadeBy (before : List UInt8) (calls : List DumpCall) (text : List UInt8) : Prop where
  kept : (∀ c ∈ calls, ¬c.Truncates) → text = before ++ (calls.map DumpCall.text).flatten
  replaced : ∀ earlier c later, calls = earlier ++ c :: later → c.Truncates →
    (∀ d ∈ later, ¬d.Truncates) → text = ((c :: later).map DumpCall.text).flatten

variable {cwd : Path} {filePath : List Char} {c : DumpCall} {calls : List DumpCall} {t : Target}
    {text : List UInt8}

/-- **A call that succeeds** stores its string after what the file holds, or in its place. -/
theorem file_dump2file (h : c.Succeeds) (hpath : filePath ≠ []) :
    (utilsFilesDump2file cwd (some filePath) c t).file =
      some ((if c.doTruncateFile ≠ 0 then [] else t.file.getD []) ++ c.text) := by
  obtain ⟨str, hstr⟩ := Option.ne_none_iff_exists'.mp h.str2dump
  have htext : c.text = str := by rw [DumpCall.text, hstr, Option.getD_some]
  have hlen : filePath.length > 0 := List.length_pos_iff.mpr hpath
  simp only [utilsFilesDump2file, hstr, hlen, if_true, h.opened, h.written, htext, List.take_length]
  split_ifs with htrunc
  · rw [openFile, if_pos rfl, write_empty, List.nil_append]
  · rw [openFile, if_neg Bool.false_ne_true, write_append]

/-- One more call, the last. -/
theorem dumps_concat (calls : List DumpCall) (c : DumpCall) (t : Target) :
    dumps cwd filePath (calls ++ [c]) t =
      utilsFilesDump2file cwd (some filePath) c (dumps cwd filePath calls t) := by
  induction calls generalizing t with
  | nil => rfl
  | cons d calls ih => exact ih _

theorem madeBy_nil (before : List UInt8) : MadeBy before [] before :=
  ⟨fun _ => by simp, fun earlier c later h => by simp at h⟩

/-- A call that truncates makes the text its own. -/
theorem madeBy_truncated (before : List UInt8) (calls : List DumpCall) (hc : c.Truncates) :
    MadeBy before (calls ++ [c]) c.text where
  kept h := absurd hc (h c (by simp))
  replaced earlier d later hcalls _ hlater := by
    cases later using List.reverseRecOn with
    | nil =>
      obtain ⟨-, hd⟩ := List.append_inj' hcalls rfl
      rw [← hd]
      simp
    | append_singleton later e _ =>
      have hsplit : calls ++ [c] = (earlier ++ d :: later) ++ [e] := by rw [hcalls]; simp
      obtain ⟨-, he⟩ := List.append_inj' hsplit rfl
      rw [← List.singleton_inj.mp he] at hlater
      exact absurd hc (hlater c (by simp))

/-- Another adds its own. -/
theorem MadeBy.append {before : List UInt8} (h : MadeBy before calls text) (hc : ¬c.Truncates) :
    MadeBy before (calls ++ [c]) (text ++ c.text) where
  kept hall := by
    rw [h.kept fun d hd => hall d (List.mem_append_left _ hd)]
    simp
  replaced earlier d later hcalls hd hlater := by
    cases later using List.reverseRecOn with
    | nil =>
      obtain ⟨-, he⟩ := List.append_inj' hcalls rfl
      rw [List.singleton_inj.mp he] at hc
      exact absurd hd hc
    | append_singleton later e _ =>
      have hsplit : calls ++ [c] = (earlier ++ d :: later) ++ [e] := by rw [hcalls]; simp
      obtain ⟨hinit, he⟩ := List.append_inj' hsplit rfl
      rw [h.replaced earlier d later hinit hd fun x hx => hlater x (List.mem_append_left _ hx),
        List.singleton_inj.mp he]
      simp

/-- **Calls that succeed** store their strings one after the other. -/
theorem file_dumps (hpath : filePath ≠ []) (hne : calls ≠ []) (hok : ∀ c ∈ calls, c.Succeeds)
    (t : Target) :
    ∃ text, (dumps cwd filePath calls t).file = some text ∧ MadeBy (t.file.getD []) calls text := by
  induction calls using List.reverseRecOn with
  | nil => exact absurd rfl hne
  | append_singleton calls c ih =>
    rw [dumps_concat, file_dump2file (hok c (by simp)) hpath]
    by_cases hc : c.doTruncateFile ≠ 0
    · rw [if_pos hc, List.nil_append]
      exact ⟨_, rfl, madeBy_truncated _ _ hc⟩
    · rw [if_neg hc]
      refine ⟨_, rfl, MadeBy.append ?_ hc⟩
      by_cases hcalls : calls = []
      · rw [hcalls]
        exact madeBy_nil _
      · obtain ⟨text, hfile, hmade⟩ := ih hcalls fun d hd => hok d (List.mem_append_left _ hd)
        rw [hfile]
        exact hmade

/-- **Written text reads back**: after any calls that succeed, a file that is read whole is in the
buffer as they have made it, with a zero after it. -/
theorem text_reads_back (cwd : Path) {filePath : List Char} (hpath : filePath ≠ [])
    {calls : List DumpCall} (hne : calls ≠ []) (hok : ∀ c ∈ calls, c.Succeeds) (t : Target)
    {env : ReadEnv} (hfile : (dumps cwd filePath calls t).file = some env.content)
    (hopen : env.isOpen = true) (hcalloc : env.calloc = true) (hread : env.ReadsAll) :
    ∃ buf, utilsFilesFile2buf env (some filePath) = some buf ∧
      MadeBy (t.file.getD []) calls (buf.take env.content.length) ∧
      buf[env.content.length]? = some 0 := by
  obtain ⟨text, htext, hmade⟩ := file_dumps hpath hne hok t
  obtain rfl : text = env.content := Option.some.inj (htext.symm.trans hfile)
  refine ⟨_, file2buf_whole hread (Option.some_ne_none _) hopen hcalloc, ?_, by simp⟩
  rwa [List.take_left]

/-- A call in which everything succeeds. -/
def dumpCall (text : List UInt8) (doTruncateFile : Int32) : DumpCall :=
  ⟨some text, doTruncateFile, 0, true, some text.length⟩

theorem succeeds_dumpCall (text : List UInt8) (doTruncateFile : Int32) :
    (dumpCall text doTruncateFile).Succeeds :=
  ⟨by simp [dumpCall], rfl, rfl⟩

/-- A file with a zero in it is added to, replaced, and added to twice, once with nothing. -/
theorem text_reads_back_replaced :
    let calls := [dumpCall [48] 0, dumpCall [65, 66] 1, dumpCall [] 0, dumpCall [67] 0]
    ∃ buf, utilsFilesFile2buf ⟨[65, 66, 67], true, 3, true, true, 3⟩ (some ['f']) = some buf ∧
      MadeBy [49, 0] calls (buf.take 3) ∧ buf[3]? = some 0 := by
  refine text_reads_back [] (by decide) (by simp) ?_ ⟨oneFile, some [49, 0]⟩
    (by decide) rfl rfl ⟨by decide, rfl, by decide⟩
  intro c hc
  simp only [List.mem_cons, List.not_mem_nil, or_false] at hc
  rcases hc with rfl | rfl | rfl | rfl <;> exact succeeds_dumpCall _ _

end NginxTools.UtilsFiles
