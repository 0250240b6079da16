import Akos.Shell.Blocks

/-!
# Commands

The handlers of `shell.c` for the commands, and the line that is split to find one. A command that is not known is
looked for in the directories of `env_path`. Commands that stop the machine do not return, and neither does one that
ends the shell.
-/

namespace Akos.Shell

open Fat12 (FILE Flags)

variable {σ : Type} (sys : System σ)

/-- `PHASE` -/
abbrev phase : BitVec 32 := 100#32

/-- `"a:\\bin;"` -/
def envPath : List Byte := [0x61#8, 0x3A#8, backslash, 0x62#8, 0x69#8, 0x6E#8, semicolon]

/-- The names that `get_help_index` knows, in its order, with `help_strings`. -/
def helpStrings : List (List Byte × List Byte) :=
  [(text "help", text "Provides help for a certain command\nUsage: help CMD"),
    (text "reboot", text "Reboots the computer.\nUsage: reboot"),
    (text "shutdown", text "Shuts down the computer\nUsage: shutdown"),
    (text "ls", text "Lists the files in the current directory\nUsage: ls"),
    (text "cd", text "Changes directory to the specified directory\nUsage: cd DIR"),
    (text "mkdir", text "Creates a new directory in the current directory with the specified name\nUsage: mkdir PATH"),
    (text "touch", text "Makes a new file in the current directory with the specified name\nUsage: touch PATH"),
    (text "write", text "Opens a text editor to write text to a file with the specified name, press esc to exit it\n" ++
      text "Usage: write PATH\n2nd optional parameter is -o to override the previous contents of the file."),
    (text "cat", text "Prints out the contents of a file\nUsage: cat PATH"),
    (text "cls", text "Clears the screen\nUsage: cls"),
    (text "rm", text "Removes a file or directory within the current directory with the specified name\n" ++
      text "Usage: rm PATH"),
    (text "size", text "Gives the size of the specified file in bytes\nUsage: size PATH"),
    (text "concat", text "Concatenates 2 files and stores them in a destination file\nUsage: concat DEST F1 F2"),
    (text "stats", text "Displays various stats\nUsage: stats"),
    (text "exec", text "Executes a PE program\nUsage: exec PATH"),
    (text "execbg", text "Executes a PE program in the background\nUsage: execbg PATH"),
    (text "ps", text "Prints out the list of processes\nUsage: ps"),
    (text "img", text "Opens a 16 color bmp image for viewing\nUsage: img PATH"),
    (text "kill", text "Kills the process with id PID\nUsage: kill PID"),
    (text "time", text "Prints elapsed time of command\nUsage: time COMMAND")]

/-- What `print` shows for `help` alone. -/
def availableCommands : List Byte :=
  text "Available commands:\nhelp\nreboot\nshutdown\nls\ncd\nmkdir\ntouch\nwrite\ncat\ncls\nrm\nsize\n" ++
    text "concat\nstats\nexec\nexecbg\nps\nimg\nkill\ntime"

/-! ### Handlers -/

def handleHelp (cmdBuff : List Byte) : Command σ Unit := do
  let paramCount := countSubstrings cmdBuff space
  if paramCount > 2 then run (sys.print (text "too many parameters."))
  else if paramCount = 1 then run (sys.print availableCommands)
  else
    let param ← seperateAndTake sys cmdBuff space 1
    let name ← string param
    match helpStrings.lookup name with
    | none => printf sys (text "Help for command %s not found.") [.str name]
    | some help => printf sys (text "%s") [.str help]
    kfree (some param)

/-- The argument of a command, as a block without spaces at its ends. -/
def takeParam (cmdBuff : List Byte) : Command σ Nat := do
  let param ← seperateAndTake sys cmdBuff space 1
  strip param
  return param

def handleCd (cmdBuff : List Byte) : Command σ Unit := do
  if countSubstrings cmdBuff space = 2 then
    let param ← takeParam sys cmdBuff
    let newPath ← joinPath sys (← get).path param
    let name ← string newPath
    let f ← call (sys.volOpenFile name)
    if f.flags = .directory then
      kfree (some (← get).path)
      modify fun s => { s with path := newPath }
    else kfree (some newPath)
    run (sys.volCloseFile f)
    kfree (some param)

/-- The place of the last backslash. -/
def lastBackslash (str : List Byte) : Option Nat := (str.reverse.idxOf? backslash).map fun i => str.length - 1 - i

/-- `handle_mkdir` and `handle_touch`; a path without a backslash would leave a null pointer for the name. -/
def createIn (flags : Flags) (cmdBuff : List Byte) : Command σ Unit := do
  if countSubstrings cmdBuff space = 2 then
    let param ← takeParam sys cmdBuff
    let newPath ← joinPath sys (← get).path param
    let name ← string newPath
    match lastBackslash name with
    | none => throw .fault
    | some i =>
      store newPath i [0#8]
      let folder ← string newPath
      let fold ← call (sys.volOpenFile folder)
      if fold.flags = .directory then
        let dirName ← stringFrom newPath (i + 1)
        run (sys.volCreateFile fold dirName flags)
      run (sys.volCloseFile fold)
      kfree (some param)
      kfree (some newPath)

def handleMkdir (cmdBuff : List Byte) : Command σ Unit := createIn sys .directory cmdBuff

def handleTouch (cmdBuff : List Byte) : Command σ Unit := createIn sys .file cmdBuff

def handleSize (cmdBuff : List Byte) : Command σ Unit := do
  if countSubstrings cmdBuff space = 2 then
    let param ← takeParam sys cmdBuff
    let filePath ← joinPath sys (← get).path param
    let name ← string filePath
    let f ← call (sys.volOpenFile name)
    if f.flags ≠ .invalid then
      printf sys (text "file %s has size %d bytes") [.str (cString f.name), .int f.fileLength]
    run (sys.volCloseFile f)
    kfree (some param)
    kfree (some filePath)

def handleImg (cmdBuff : List Byte) : Command σ Unit := do
  if countSubstrings cmdBuff space = 2 then
    let param ← takeParam sys cmdBuff
    let newPath ← joinPath sys (← get).path param
    let name ← string newPath
    run (sys.gfxOpenBmp16 name)
    kfree (some newPath)
    kfree (some param)

/-- The nodes of `volOpenDir`, each in a block of `sizeof(FILELIST)` bytes. -/
def openDirNodes : List FILE → Command σ (List (Nat × FILE))
  | [] => pure []
  | f :: files => do
    let node ← kmalloc sys 76
    let nodes ← openDirNodes files
    return (node, f) :: nodes

/-- `while (lst)`, with the sizes and the files and the directories so far. -/
def lsLoop : List (Nat × FILE) → BitVec 32 → BitVec 32 → BitVec 32 → Command σ Unit
  | [], sz, fls, dirs => do
    printf sys (text "%d File(s)    %d Bytes.\n") [.int fls, .int sz]
    printf sys (text "%d Dir(s)") [.int dirs]
  | (node, f) :: nodes, sz, fls, dirs => do
    let date := f.dateCreated.setWidth 32
    printf sys (text "%s    %d %d-%d-%d\n") [.str (cString f.name), .int f.fileLength, .int (date &&& 0x1F#32),
      .int ((date &&& 0x1F0#32) >>> 5), .int ((date &&& (0x7F#32 <<< 9)) >>> 10)]
    run (sys.volCloseFile f)
    kfree (some node)
    if f.flags = .directory then lsLoop nodes (sz + f.fileLength) fls (dirs + 1#32)
    else lsLoop nodes (sz + f.fileLength) (fls + 1#32) dirs

def handleLs : Command σ Unit := do
  let path ← string (← get).path
  let files ← call (sys.volOpenDir path)
  let lst ← openDirNodes sys files
  lsLoop sys lst 0#32 0#32 0#32

/-- The argument as a number, from its last character on. -/
def decimalToUint (str : List Byte) : BitVec 32 :=
  (str.reverse.foldl (fun (acc : BitVec 32 × BitVec 32) c =>
    (acc.1 + (c.signExtend 32 - 0x30#32) * acc.2, acc.2 * 10#32)) (0#32, 1#32)).1

/-- `free_path` -/
def freePath : Command σ Unit := do
  let s ← get
  kfree (some s.path)
  s.cmdHistory.forM kfree

/-- `handle_kill`, and whether it returns. -/
def handleKill (cmdBuff : List Byte) : Command σ Bool := do
  if countSubstrings cmdBuff space = 2 then
    let param ← takeParam sys cmdBuff
    let pid := decimalToUint (← string param)
    match sys.getProcessByID pid (← get).world with
    | none => do kfree (some param); return true
    | some false => do run (sys.terminateProcessById pid); kfree (some param); return true
    | some true =>
      match sys.terminateKernelProcessById pid (← get).world with
      | none => do freePath; return false
      | some world => do modify (fun s => { s with world }); kfree (some param); return true
  else return true

/-! ### Programs -/

/-- What follows the first space. -/
def argsOf (cmdBuff : List Byte) : Option (List Byte) :=
  match cmdBuff.dropWhile (· ≠ space) with
  | [] => none
  | _ :: args => some args

/-- The loop over `env_path` for a program with its name. -/
def execFrom (param : Nat) (args : Option (List Byte)) : List Nat → BitVec 32 → Command σ (BitVec 32)
  | [], pid => pure pid
  | i :: rest, _ => do
    let subpath ← seperateAndTake sys envPath semicolon i
    let envNewPath ← joinPath sys subpath param
    let name ← string envNewPath
    let pid ← call (sys.createProcess name args)
    kfree (some subpath)
    kfree (some envNewPath)
    if pid ≠ 0#32 then return pid else execFrom param args rest pid

/-- `handle_exec` and `handle_execbg` up to the end of the latter. -/
def startProgram (cmdBuff : List Byte) : Command σ (BitVec 32) := do
  let param ← takeParam sys cmdBuff
  let newPath ← joinPath sys (← get).path param
  let args := argsOf cmdBuff
  let name ← string newPath
  let pid ← call (sys.createProcess name args)
  let pid ←
    if pid = 0#32 then do
      let pid ← execFrom sys param args (List.range (countSubstrings envPath semicolon)) pid
      if pid = 0#32 then
        let missing ← string newPath
        printf sys (text "process %s doesn't exist") [.str missing]
      pure pid
    else pure pid
  kfree (some newPath)
  kfree (some param)
  return pid

def handleExec (cmdBuff : List Byte) : Command σ Unit := do
  if countSubstrings cmdBuff space < 2 then pure ()
  else
    let pid ← startProgram sys cmdBuff
    run (sys.waitForProcessToFinish pid)

def handleExecbg (cmdBuff : List Byte) : Command σ Unit := do
  if countSubstrings cmdBuff space < 2 then pure ()
  else
    let _ ← startProgram sys cmdBuff

/-- The loop over `env_path` for a command, which gets the ending of a program. -/
def findFrom (cmd : Nat) (cmdBuff : List Byte) : List Nat → BitVec 32 → Command σ (BitVec 32)
  | [], pid => pure pid
  | i :: rest, _ => do
    let subpath ← seperateAndTake sys envPath semicolon i
    let envNewPath ← joinPath sys subpath cmd
    let name ← string envNewPath
    let withExe ← kmalloc sys (name.length + 4 + 1)
    store withExe 0 (name ++ [0#8])
    store withExe name.length (text ".exe" ++ [0#8])
    kfree (some envNewPath)
    let exe ← string withExe
    let pid ← call (sys.createProcess exe (some cmdBuff))
    kfree (some subpath)
    kfree (some withExe)
    if pid ≠ 0#32 then return pid else findFrom cmd cmdBuff rest pid

def unknownCommand (cmd : Nat) (cmdBuff : List Byte) : Command σ Unit := do
  let pid ← findFrom sys cmd cmdBuff (List.range (countSubstrings envPath semicolon)) 0#32
  if pid = 0#32 then
    let name ← string cmd
    printf sys (text "Unknown command '%s'. type 'help' for a list of available commands.") [.str name]
  else run (sys.waitForProcessToFinish pid)
  kfree (some cmd)

/-! ### A line -/

/-- `handle_command`, with the lines within lines that are left, and whether it returns. -/
def handleCommand : Nat → List Byte → Command σ Bool
  | 0, _ => throw .fault
  | depth + 1, line => do
    let cmdBuff := stripEnd (stripStart line)
    let cmd ← seperateAndTake sys cmdBuff space 0
    changeString cmd toLower
    let name ← string cmd
    if name = text "help" then do kfree (some cmd); handleHelp sys cmdBuff; return true
    else if name = text "reboot" then do kfree (some cmd); return false
    else if name = text "shutdown" then do kfree (some cmd); return false
    else if name = text "ls" then do kfree (some cmd); handleLs sys; return true
    else if name = text "cd" then do kfree (some cmd); handleCd sys cmdBuff; return true
    else if name = text "mkdir" then do kfree (some cmd); handleMkdir sys cmdBuff; return true
    else if name = text "touch" then do kfree (some cmd); handleTouch sys cmdBuff; return true
    else if name = text "cls" then do kfree (some cmd); run sys.clearViewport; return true
    else if name = text "rm" then do kfree (some cmd); return true
    else if name = text "size" then do kfree (some cmd); handleSize sys cmdBuff; return true
    else if name = text "stats" then do kfree (some cmd); run sys.printStats; return true
    else if name = text "exec" then do kfree (some cmd); handleExec sys cmdBuff; return true
    else if name = text "execbg" then do kfree (some cmd); handleExecbg sys cmdBuff; return true
    else if name = text "ps" then do kfree (some cmd); run sys.printProcesses; return true
    else if name = text "img" then do kfree (some cmd); handleImg sys cmdBuff; return true
    else if name = text "kill" then do kfree (some cmd); handleKill sys cmdBuff
    else if name = text "time" then do
      kfree (some cmd)
      let ticks ← call sys.getTicks
      match argsOf cmdBuff with
      | none => return true
      | some realCmd =>
        let returns ← handleCommand depth realCmd
        if returns then
          let now ← call sys.getTicks
          printf sys (text "\nelapsed time: %dms") [.int ((now - ticks) * (1000#32 / phase))]
        return returns
    else do unknownCommand sys cmd cmdBuff; return true

/-! ### The shell -/

/-- The string at `cmd_history[0]`, which is a null pointer in the beginning. -/
def newestCmd : Command σ (List Byte) := do
  let s ← get
  match s.cmdHistory.head?.join with
  | none => pure (sys.atNull s.world)
  | some p => string p

/-- `push_cmd_to_history` -/
def pushCmdToHistory (cmd : List Byte) : Command σ Unit := do
  let newest ← newestCmd sys
  let s ← get
  if strcmp newest cmd then modify fun s => { s with cmdHistoryPtr := -1 }
  else
    kfree (s.cmdHistory.getLast?.join)
    let p ← kmalloc sys (cmd.length + 1)
    store p 0 (cmd ++ [0#8])
    modify fun s => { s with cmdHistory := some p :: s.cmdHistory.dropLast, cmdHistoryPtr := -1 }

/-- `memcmp`, up to the first difference. -/
def memcmp : List Byte → List Byte → Option Bool
  | _, [] => some true
  | [], _ :: _ => none
  | b :: bs, c :: cs => if b ≠ c then some false else memcmp bs cs

/-- The prompt. -/
def prompt : Command σ Unit := do
  let path := (← get).path
  let bytes ← load path
  match memcmp bytes [0x61#8, 0x3A#8, backslash, 0x68#8, 0x6F#8, 0x6D#8, 0x65#8] with
  | none => throw .fault
  | some true => printf sys (text "\n~> ") []
  | some false => do
    let str ← string path
    printf sys (text "\n%s> ") [.str str]

/-- One round of `shell_main` with the line that is read. -/
def round (line : List Byte) : Command σ Bool := do
  prompt sys
  pushCmdToHistory sys line
  handleCommand sys (line.length + 1) line

/-- `CMD_HISTORY_SIZE` -/
abbrev cmdHistorySize : Nat := 10

/-- `shell_main` up to its loop. -/
def start : Command σ Unit := do
  modify fun s => { s with cmdHistory := List.replicate cmdHistorySize none }
  let path ← kmalloc sys (3 + 1)
  modify fun s => { s with path }
  store path 0 [0x61#8, 0x3A#8, backslash, 0#8]
  handleCd sys (text "cd home")

/-- The rounds for some lines, as long as they return. -/
def rounds : List (List Byte) → Command σ Bool
  | [] => return true
  | line :: lines => do
    if ← round sys line then rounds lines else return false

def shellMain (lines : List (List Byte)) : Command σ Bool := do
  start sys
  rounds sys lines

end Akos.Shell
