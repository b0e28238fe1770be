import LockDiscipline.CommandLine.Run

/- The program: it looks at the real disk, prints what a run says and ends with
   its exit code. -/
namespace LockDiscipline

end LockDiscipline
