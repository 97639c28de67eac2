import SpeechDecoder.CommandLine.Batch

/-! The command over the files of the disk. What was decoded goes to the standard output, and what went
wrong to the standard error. -/
open SpeechDecoder

/-- The number of the operating system for what is a directory but was read as a file. -/
def directoryErrorCode : UInt32 := 21

def addFromDisk (files : FileTree) (name : String) : IO FileTree := do
  try
    let bytes ← IO.FS.readBinFile name
    return files.add name bytes.toList
  catch
    | .inappropriateType _ code _ =>
      return if code = directoryErrorCode then files.add (name ++ "/") [] else files
    | _ => return files

def main (args : List String) : IO UInt32 := do
  let _ : Elementary := Elementary.system
  let names := (CommandLine.Arguments.read? args).elim [] CommandLine.Arguments.fileNames
  let files ← names.foldlM addFromDisk {}
  let ending := CommandLine.command files none args
  let output ← IO.getStdout
  output.write ⟨ending.written.toArray⟩
  output.flush
  if !ending.report.isEmpty then (← IO.getStderr).putStrLn ending.report
  return ending.code
