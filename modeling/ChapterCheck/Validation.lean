import ChapterCheck.Config
import ChapterCheck.Document
import ChapterCheck.Report
import ChapterCheck.Survey

namespace ChapterCheck

-- Reading starts only once every listing succeeded.
structure Validation where
  listings : List Listing
  outcomes : List (Document × Outcome)
  deriving DecidableEq, Repr

namespace Validation

def documentsOf (listings : List Listing) (extension : String) : List Path :=
  (listings.flatMap (·.documents extension)).mergeSort Path.notAfter

def judge (tree : ContentTree) (config : Config) (path : Path) :
    Except Failure (Document × Outcome) :=
  (Document.load tree config.base path).map fun d => (d, d.check config.patterns)

def judgeAll (tree : ContentTree) (config : Config) (listings : List Listing) :
    Except Failure Validation :=
  ((documentsOf listings config.extension).mapM (judge tree config)).map (Validation.mk listings)

def run (tree : ContentTree) (config : Config) : Except Failure Validation :=
  (tree.survey config.root).bind (judgeAll tree config)

def report (v : Validation) : Report :=
  { filesScanned := v.outcomes.length
    codeBlocks := v.outcomes.foldl (fun blocks (_, outcome) => blocks + outcome.codeBlocks) 0
    findings := v.outcomes.flatMap fun (_, outcome) => outcome.findings }

end Validation

def validate (tree : ContentTree) (config : Config) : Except Failure Report :=
  (Validation.run tree config).map Validation.report

end ChapterCheck
